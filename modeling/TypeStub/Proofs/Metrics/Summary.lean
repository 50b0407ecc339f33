import TypeStub.Metrics
import TypeStub.Proofs.Metrics.Json
import TypeStub.Proofs.Number.Finite
import TypeStub.Proofs.Table.Ordered

-- When the JSON summary is JSON.
namespace TypeStub

namespace Metrics

inductive Step
  | start (stage : Text) (now : Nat)
  | stop (stage : Text) (now : Nat)
  | count (key : Text) (delta : UInt64)
  | setCounter (key : Text) (value : UInt64)
  | setGauge (key : Text) (value : UInt64)

def apply (m : Metrics) : Step → Metrics
  | .start stage now => m.start stage now
  | .stop stage now => m.stop stage now
  | .count key delta => m.count key delta
  | .setCounter key value => m.setCounter key value
  | .setGauge key value => m.setGauge key value

-- The metrics after some steps.
def reached (steps : List Step) : Metrics := steps.foldl apply .empty

structure Ordered (m : Metrics) : Prop where
  durations : m.durations.Ordered
  counters : m.counters.Ordered
  gauges : m.gauges.Ordered

-- The names of the stages as the JSON summary has them.
def stageKeys (m : Metrics) : List Text := m.durations.names.map fun stage => stage.map Char.toLower

-- The keys of the durations: those of the stages, next to that of the total.
def durationKeys (m : Metrics) : List Text := "total" :: m.stageKeys

-- Every name in the summary, as it is written there.
def writtenKeys (m : Metrics) : List Text := m.stageKeys ++ m.counters.names ++ m.gauges.names

-- A member on a line of its own.
def member (gap key : Text) (value : Json) (text : Text) : Json.Member :=
  ⟨gap, key, [], value, ' ' :: text⟩

-- An object of numbers.
def numbers (entries : List (Text × Text)) : Json :=
  .object (entries.map fun entry => (entry.1, .number entry.2))

def numbersText (entries : List (Text × Text)) : Text :=
  "\x7b" ++ Text.joinWith "," (entries.map fun entry => jsonEntry entry.1 entry.2) ++ "\n  \x7d"

def numberMember (entry : Text × Text) : Json.Member :=
  member "\n    " entry.1 (.number entry.2) entry.2

def durationEntries (m : Metrics) : List (Text × Text) :=
  (m.orderedDurations.map fun entry => (entry.1.map Char.toLower, millis entry.2)) ++
    if m.durations.isEmpty then [] else [(("total" : Text), millis m.totalDuration)]

def valueEntries (table : Table UInt64) : List (Text × Text) :=
  table.map fun entry => (entry.1, valueText entry.2)

def tableSection (title : Text) (table : Table UInt64) : List Json.Member :=
  if table.isEmpty then []
  else [member "\n  " title (numbers (valueEntries table)) (numbersText (valueEntries table))]

def hintText (hint : Text) : Text := "\"" ++ hint ++ "\""

def hintSection : List Text → List Json.Member
  | [] => []
  | hints => [member "\n  " "hints" (.array (hints.map .string))
      ("[" ++ Text.joinWith ", " (hints.map hintText) ++ "]")]

def sections (m : Metrics) : List Json.Member :=
  member "\n  " "durations_ms" (numbers m.durationEntries) (numbersText m.durationEntries) ::
    (tableSection "counters" m.counters ++ tableSection "gauges" m.gauges ++ hintSection m.hints)

-- What the summary says.
def summaryTree (m : Metrics) : Json :=
  .object (m.sections.map fun part => (part.key, part.value))

-- A member that is written well, with the text of its value.
def Sound (member : Json.Member) : Prop :=
  member.Formed ∧ Json.Element member.value member.text

theorem number_millis (time : UInt64) : Json.Number (millis time) := by
  obtain ⟨mantissa, exponent, hfinite⟩ := Binary64.divNat_ofRatio_eq_finite time.toNat_lt 1000
  rw [millis, hfinite]
  exact Json.number_fixed ..

theorem number_valueText (value : UInt64) : Json.Number (valueText value) := Json.number_ofNat _

section

variable {m : Metrics} {title : Text} {table : Table UInt64} {entries : List (Text × Text)}

theorem Ordered.empty : Ordered .empty := ⟨.nil, .nil, .nil⟩

theorem Ordered.apply (h : m.Ordered) (step : Step) : (m.apply step).Ordered := by
  cases step with
  | start stage now => exact ⟨h.durations, h.counters, h.gauges⟩
  | stop stage now =>
      rw [Metrics.apply, Metrics.stop]
      split
      · exact h
      · exact ⟨h.durations.update .., h.counters, h.gauges⟩
  | count key delta => exact ⟨h.durations, h.counters.update .., h.gauges⟩
  | setCounter key value => exact ⟨h.durations, h.counters.update .., h.gauges⟩
  | setGauge key value => exact ⟨h.durations, h.counters, h.gauges.update ..⟩

theorem ordered_reached (steps : List Step) : (reached steps).Ordered :=
  List.foldlRecOn steps Metrics.apply .empty fun _ h step _ => h.apply step

theorem member_written (gap key : Text) (value : Json) (text : Text) :
    (member gap key value text).written = gap ++ "\"" ++ key ++ "\": " ++ text := by
  have hopen : ("\"" : Text) = ['"'] := by decide
  have hclose : ("\": " : Text) = ['"', ':', ' '] := by decide
  rw [hopen, hclose, member, Json.Member.written]
  simp only [List.append_assoc, List.cons_append, List.nil_append]

theorem numberMember_written (entry : Text × Text) :
    (numberMember entry).written = jsonEntry entry.1 entry.2 := by
  have hopen : ("\n    \"" : Text) = ("\n    " : Text) ++ ("\"" : Text) := by decide
  unfold jsonEntry
  rw [numberMember, member_written, hopen]

theorem tableSection_written (title : Text) (table : Table UInt64) :
    ((tableSection title table).map Json.Member.written).flatMap (("," : Text) ++ ·) =
      jsonObject title table := by
  rw [tableSection, jsonObject]
  split
  · rfl
  · have hopen : (",\n  \"" : Text) = ("," : Text) ++ (("\n  " : Text) ++ ("\"" : Text)) := by
      decide
    have hclose : ("\": \x7b" : Text) = ("\": " : Text) ++ ("\x7b" : Text) := by decide
    rw [hopen, hclose, List.map_singleton, List.flatMap_singleton, member_written, numbersText,
      valueEntries, List.map_map]
    simp only [List.append_assoc, Function.comp_def]

theorem hintSection_written (hints : List Text) :
    ((hintSection hints).map Json.Member.written).flatMap (("," : Text) ++ ·) =
      match hints with
      | [] => []
      | hints => ",\n  \"hints\": [" ++ Text.joinWith ", " (hints.map hintText) ++ "]" := by
  cases hints with
  | nil => rfl
  | cons hint rest =>
      have hopen : (",\n  \"hints\": [" : Text) = ("," : Text) ++ (("\n  " : Text) ++
          (("\"" : Text) ++ (("hints" : Text) ++ (("\": " : Text) ++ ("[" : Text))))) := by
        decide
      dsimp only [hintSection]
      rw [hopen, List.map_singleton, List.flatMap_singleton, member_written]
      simp only [List.append_assoc]

theorem summaryJson_eq (m : Metrics) :
    m.summaryJson = "\x7b" ++ Text.joinWith "," (m.sections.map Json.Member.written) ++
      "\n\x7d\n" := by
  have hdurations : m.jsonDurations =
      m.durationEntries.map fun entry => jsonEntry entry.1 entry.2 := by
    rw [jsonDurations, durationEntries, List.map_append, List.map_map]
    split <;> rfl
  have hopen : ("\x7b\n  \"durations_ms\": \x7b" : Text) =
      ("\x7b" : Text) ++ ("\n  " : Text) ++ ("\"" : Text) ++ ("durations_ms" : Text) ++
        ("\": " : Text) ++ ("\x7b" : Text) := by
    decide
  rw [sections, List.map_cons, Text.joinWith_cons_flatMap, List.map_append, List.map_append,
    List.flatMap_append, List.flatMap_append, tableSection_written, tableSection_written,
    hintSection_written, member_written, numbersText, ← hdurations]
  unfold summaryJson
  dsimp only
  rw [hopen]
  simp only [List.append_assoc]
  rfl

theorem member_formed {gap key text : Text} {value : Json} (hgap : Json.Blank gap)
    (hkey : Json.Body key) : (member gap key value text).Formed :=
  ⟨hgap, hkey, List.forall_mem_nil _⟩

theorem element_spaced {tree : Json} {text : Text} (h : Json.Element tree text) :
    Json.Element tree (' ' :: text) := by
  have hpadded := @Json.Element.padded tree [' '] text [] (by decide) h (by decide)
  rwa [List.append_nil] at hpadded

-- A section of numbers under keys.
theorem element_numbers (hbody : ∀ entry ∈ entries, Json.Body entry.1)
    (hnumber : ∀ entry ∈ entries, Json.Number entry.2) :
    Json.Element (numbers entries) (numbersText entries) := by
  have hobject := @Json.Element.object (entries.map numberMember) "\n  "
    (List.forall_mem_map.mpr fun entry hentry => member_formed (by decide) (hbody entry hentry))
    (List.forall_mem_map.mpr fun entry hentry =>
      element_spaced (.number (hnumber entry hentry))) (by decide)
  have hclose : ("\n  \x7d" : Text) = ("\n  " : Text) ++ ['\x7d'] := by decide
  rw [List.map_map, List.map_map, Function.comp_def, Function.comp_def,
    funext numberMember_written] at hobject
  rw [numbers, numbersText, hclose, ← List.append_assoc]
  exact hobject

theorem noRepeats_numbers_iff :
    Json.NoRepeats (numbers entries) ↔ Json.Apart (entries.map Prod.fst) := by
  have hkeys : ((entries.map fun entry => (entry.1, Json.number entry.2)).map Prod.fst) =
      entries.map Prod.fst := by
    rw [List.map_map]
    rfl
  rw [← hkeys]
  constructor
  · intro h
    cases h with
    | object happart _ => exact happart
  · intro h
    exact .object h (List.forall_mem_map.mpr fun _ _ => .number)

-- The summary of the durations has each of them once.
theorem Ordered.perm_durations (h : m.Ordered) : m.orderedDurations.Perm m.durations := by
  have hnodup : m.durations.Nodup := List.Nodup.of_map Prod.fst h.durations.nodup
  have hknown {stage : Text} {time : UInt64} :
      (stage, time) ∈ (stages.filterMap fun stage =>
        (m.durations.get? stage).map fun time => (stage, time)) ↔
          stage ∈ stages ∧ (stage, time) ∈ m.durations := by
    rw [← h.durations.get?_eq_some_iff]
    simp [List.mem_filterMap]
  have hstages : (stages.filterMap fun stage =>
      (m.durations.get? stage).map fun time => (stage, time)).Nodup := by
    refine List.Nodup.filterMap ?_ (by decide)
    intro stage stage' entry hentry hentry'
    obtain ⟨time, -, rfl⟩ := Option.map_eq_some_iff.mp hentry
    obtain ⟨time', -, heq⟩ := Option.map_eq_some_iff.mp hentry'
    exact (congrArg Prod.fst heq).symm
  have hboth : m.orderedDurations.Nodup := by
    refine List.Nodup.append hstages (hnodup.filter _) ?_
    rintro ⟨stage, time⟩ hstage hother
    simpa [(hknown.mp hstage).1] using (List.mem_filter.mp hother).2
  refine (List.perm_ext_iff_of_nodup hboth hnodup).mpr ?_
  rintro ⟨stage, time⟩
  rw [orderedDurations, List.mem_append, hknown, List.mem_filter]
  by_cases hstage : stage ∈ stages <;> simp [hstage]

-- The durations are under the names of their stages, next to the total.
theorem Ordered.perm_durationKeys (h : m.Ordered) :
    (m.durationEntries.map Prod.fst).Perm
      (if m.durations.isEmpty then [] else m.durationKeys) := by
  have hstages : (m.orderedDurations.map fun entry => entry.1.map Char.toLower).Perm m.stageKeys := by
    rw [stageKeys, Table.names, List.map_map]
    exact h.perm_durations.map _
  rw [durationEntries, List.map_append, List.map_map]
  by_cases hempty : m.durations.isEmpty
  · have hnone : m.orderedDurations = [] :=
      List.perm_nil.mp (List.isEmpty_iff.mp hempty ▸ h.perm_durations)
    rw [if_pos hempty, if_pos hempty, hnone]
    exact .nil
  · rw [if_neg hempty, if_neg hempty]
    exact (List.perm_append_singleton ..).trans (hstages.cons _)

theorem sound_member {gap key text : Text} {value : Json} (hgap : Json.Blank gap)
    (hkey : Json.Body key) (hvalue : Json.Element value text) : Sound (member gap key value text) :=
  ⟨member_formed hgap hkey, element_spaced hvalue⟩

theorem sound_tableSection (htitle : Json.Body title) (hbody : ∀ key ∈ table.names, Json.Body key) :
    ∀ part ∈ tableSection title table, Sound part := by
  rw [tableSection]
  split
  · exact List.forall_mem_nil _
  · refine List.forall_mem_singleton.mpr (sound_member (by decide) htitle (element_numbers ?_ ?_))
    · exact List.forall_mem_map.mpr fun entry hentry => hbody _ (List.mem_map_of_mem hentry)
    · exact List.forall_mem_map.mpr fun entry _ => number_valueText entry.2

-- A list of hints, with a space behind each comma.
theorem element_hints {hint : Text} {rest : List Text}
    (h : ∀ text ∈ hint :: rest, Json.Body text) :
    Json.Element (.array ((hint :: rest).map .string))
      ("[" ++ Text.joinWith ", " ((hint :: rest).map hintText) ++ "]") := by
  have helement {hint : Text} (hbody : Json.Body hint) :
      Json.Element (.string hint) (hintText hint) := .string hbody
  obtain ⟨hfirst, hothers⟩ := List.forall_mem_cons.mp h
  have harray := @Json.Element.array
    ((.string hint, hintText hint) :: rest.map fun hint => (.string hint, ' ' :: hintText hint)) []
    (List.forall_mem_cons.mpr ⟨helement hfirst, List.forall_mem_map.mpr fun hint hhint =>
      element_spaced (helement (hothers hint hhint))⟩) (by decide)
  have hjoin : Text.joinWith ", " ((hint :: rest).map hintText) =
      Text.joinWith "," (hintText hint :: rest.map fun hint => ' ' :: hintText hint) := by
    rw [List.map_cons, Text.joinWith_cons_flatMap, Text.joinWith_cons_flatMap, List.flatMap_map,
      List.flatMap_map]
    rfl
  rw [List.map_cons, List.map_cons, List.map_map, List.map_map, List.append_nil] at harray
  rw [hjoin]
  exact harray

theorem sound_hintSection {hints : List Text} (h : ∀ hint ∈ hints, Json.Body hint) :
    ∀ part ∈ hintSection hints, Sound part := by
  cases hints with
  | nil => exact List.forall_mem_nil _
  | cons hint rest =>
      exact List.forall_mem_singleton.mpr
        (sound_member (by decide) (Json.body_of_ascii (by decide)) (element_hints h))

theorem body_of_mem_hints {hint : Text} (h : hint ∈ m.hints) : Json.Body hint := by
  have hknown : hint = "parse_failed" ∨ hint = "large_input" := by
    rw [hints, List.mem_append] at h
    refine h.imp ?_ ?_ <;> split <;> simp
  rcases hknown with rfl | rfl <;> exact Json.body_of_ascii (by decide)

-- Every key is in place where the names are.
theorem sound_sections (h : m.Ordered) (hbody : ∀ key ∈ m.writtenKeys, Json.Body key) :
    ∀ part ∈ m.sections, Sound part := by
  simp only [writtenKeys, List.forall_mem_append] at hbody
  obtain ⟨⟨hstages, hcounters⟩, hgauges⟩ := hbody
  simp only [sections, List.forall_mem_cons, List.forall_mem_append]
  refine ⟨sound_member (by decide) (Json.body_of_ascii (by decide)) (element_numbers ?_ ?_),
    ⟨sound_tableSection (Json.body_of_ascii (by decide)) hcounters,
      sound_tableSection (Json.body_of_ascii (by decide)) hgauges⟩,
    sound_hintSection fun _ => body_of_mem_hints⟩
  · intro entry hentry
    have hkey := h.perm_durationKeys.mem_iff.mp (List.mem_map_of_mem hentry)
    split at hkey
    · cases hkey
    · rcases List.mem_cons.mp hkey with htotal | hstage
      · rw [htotal]
        exact Json.body_of_ascii (by decide)
      · exact hstages _ hstage
  · rw [durationEntries]
    refine List.forall_mem_append.mpr
      ⟨List.forall_mem_map.mpr fun entry _ => number_millis entry.2, ?_⟩
    split
    · exact List.forall_mem_nil _
    · exact List.forall_mem_singleton.mpr (number_millis _)

theorem element_summaryJson (h : m.Ordered) (hbody : ∀ key ∈ m.writtenKeys, Json.Body key) :
    Json.Element m.summaryTree m.summaryJson := by
  have hsound := sound_sections h hbody
  have hobject := @Json.Element.object m.sections "\n" (fun part hpart => (hsound part hpart).1)
    (fun part hpart => (hsound part hpart).2) (by decide)
  have hdocument := @Json.Element.padded _ [] _ "\n" (by decide) hobject (by decide)
  have hclose : ("\n\x7d\n" : Text) = ("\n" : Text) ++ (['\x7d'] ++ ("\n" : Text)) := by decide
  rw [summaryJson_eq, hclose, summaryTree]
  simpa using hdocument

theorem noRepeats_tableSection_iff :
    (∀ part ∈ tableSection title table, Json.NoRepeats part.value) ↔ Json.Apart table.names := by
  rw [tableSection]
  split
  · rename_i hempty
    obtain rfl := List.isEmpty_iff.mp hempty
    exact iff_of_true (List.forall_mem_nil _) .nil
  · rw [List.forall_mem_singleton]
    refine noRepeats_numbers_iff.trans ?_
    rw [valueEntries, List.map_map]
    rfl

theorem noRepeats_hintSection (hints : List Text) :
    ∀ part ∈ hintSection hints, Json.NoRepeats part.value := by
  cases hints with
  | nil => exact List.forall_mem_nil _
  | cons hint rest =>
      exact List.forall_mem_singleton.mpr (.array (List.forall_mem_map.mpr fun _ _ => .string))

theorem keys_tableSection (title : Text) (table : Table UInt64) :
    ((tableSection title table).map (·.key)).Sublist [title] := by
  rw [tableSection]
  split
  · exact List.nil_sublist _
  · exact .refl _

theorem keys_hintSection (hints : List Text) :
    ((hintSection hints).map (·.key)).Sublist [("hints" : Text)] := by
  cases hints with
  | nil => exact List.nil_sublist _
  | cons hint rest => exact .refl _

-- The sections themselves are all different.
theorem apart_sections (m : Metrics) : Json.Apart (m.sections.map (·.key)) := by
  have hsublist : (m.sections.map (·.key)).Sublist
      (["durations_ms", "counters", "gauges", "hints"] : List Text) := by
    rw [sections, List.map_cons, List.map_append, List.map_append]
    exact ((keys_tableSection "counters" _).append (keys_tableSection "gauges" _)).append
      (keys_hintSection _) |>.cons_cons _
  have hall : ∀ key ∈ (["durations_ms", "counters", "gauges", "hints"] : List Text),
      (key.all fun c => ' ' ≤ c ∧ c ≠ '"' ∧ c ≠ '\\' ∧ c ≤ '\x7f') = true ∧ '\\' ∉ key := by
    decide
  have happart := (Json.apart_iff_nodup (fun key hkey => Json.body_of_ascii (hall key hkey).1)
    fun key hkey => (hall key hkey).2).mpr (by decide)
  exact happart.sublist hsublist

theorem noRepeats_summaryTree_iff (h : m.Ordered) : Json.NoRepeats m.summaryTree ↔
    Json.Apart m.durationKeys ∧ Json.Apart m.counters.names ∧
      Json.Apart m.gauges.names := by
  have hdurations : Json.Apart (m.durationEntries.map Prod.fst) ↔
      Json.Apart m.durationKeys := by
    refine (Json.apart_perm h.perm_durationKeys).trans ?_
    split
    · rename_i hempty
      rw [durationKeys, stageKeys, List.isEmpty_iff.mp hempty]
      exact iff_of_true .nil (List.pairwise_singleton ..)
    · rfl
  have hparts : (∀ part ∈ m.sections, Json.NoRepeats part.value) ↔
      Json.Apart m.durationKeys ∧ Json.Apart m.counters.names ∧
        Json.Apart m.gauges.names := by
    rw [sections, List.forall_mem_cons, List.forall_mem_append, List.forall_mem_append,
      noRepeats_tableSection_iff, noRepeats_tableSection_iff, ← hdurations]
    exact and_congr noRepeats_numbers_iff (and_iff_left (noRepeats_hintSection _))
  rw [← hparts]
  constructor
  · intro h
    cases h with
    | object _ hvalues => exact fun part hpart => hvalues _ (List.mem_map_of_mem hpart)
  · intro h
    refine .object ?_ (List.forall_mem_map.mpr h)
    rw [List.map_map]
    exact apart_sections m

-- Names are written as they are. If each of them, as it is written, can stand between quotation
-- marks, then the summary is JSON. A key is there twice just if two names in one place, as they are
-- written, stand for the same text, and that takes a backslash, or else two names of stages that
-- differ in case only, or one that is the name of the total.
theorem summaryJson_isJson (steps : List Step)
    (hbody : ∀ key ∈ (reached steps).writtenKeys, Json.Body key) :
    ∃ tree, Json.Element tree (reached steps).summaryJson ∧
      (Json.NoRepeats tree ↔ Json.Apart (reached steps).durationKeys ∧
        Json.Apart (reached steps).counters.names ∧ Json.Apart (reached steps).gauges.names) ∧
      ((∀ key ∈ (reached steps).writtenKeys, '\\' ∉ key) →
        (Json.NoRepeats tree ↔ (reached steps).durationKeys.Nodup)) := by
  have hordered := ordered_reached steps
  have hiff := noRepeats_summaryTree_iff hordered
  refine ⟨_, element_summaryJson hordered hbody, hiff, fun hplain => ?_⟩
  simp only [writtenKeys, List.forall_mem_append] at hbody hplain
  obtain ⟨⟨hstages, hcounters⟩, hgauges⟩ := hbody
  obtain ⟨⟨hstages', hcounters'⟩, hgauges'⟩ := hplain
  have htotal : Json.Apart (reached steps).durationKeys ↔
      (reached steps).durationKeys.Nodup :=
    Json.apart_iff_nodup (List.forall_mem_cons.mpr ⟨Json.body_of_ascii (by decide), hstages⟩)
      (List.forall_mem_cons.mpr ⟨by decide, hstages'⟩)
  rw [hiff, htotal]
  exact and_iff_left ⟨(Json.apart_iff_nodup hcounters hcounters').mpr hordered.counters.nodup,
    (Json.apart_iff_nodup hgauges hgauges').mpr hordered.gauges.nodup⟩

-- One stage, one counter and one gauge.
theorem summaryJson_isJson_three : ∃ tree, Json.Element tree (reached [.start "Lex" 0,
    .stop "Lex" 1500, .count "lex.tokens" 3, .setGauge "parse.ok" 0]).summaryJson ∧
      Json.NoRepeats tree := by
  let steps : List Step := [.start "Lex" 0, .stop "Lex" 1500, .count "lex.tokens" 3,
    .setGauge "parse.ok" 0]
  have hkeys : ∀ key ∈ (reached steps).writtenKeys,
      (key.all fun c => ' ' ≤ c ∧ c ≠ '"' ∧ c ≠ '\\' ∧ c ≤ '\x7f') = true ∧ '\\' ∉ key := by
    decide
  obtain ⟨tree, htree, -, hrepeats⟩ := summaryJson_isJson steps fun key hkey =>
    Json.body_of_ascii (hkeys key hkey).1
  exact ⟨tree, htree, (hrepeats fun key hkey => (hkeys key hkey).2).mpr (by decide)⟩

-- A control character in a name is written as it is, and JSON has no place for it.
theorem summaryJson_not_isJson : ¬ ∀ steps, ∃ tree,
    Json.Element tree (reached steps).summaryJson ∧ Json.NoRepeats tree := by
  intro h
  obtain ⟨tree, htree, -⟩ := h [.count "\x01" 0]
  have hmem : '\x01' ∈ (reached [.count "\x01" 0]).summaryJson := by decide
  have hnot : ¬ Json.Visible '\x01' := by
    simp [Json.Visible]
  exact hnot (htree.visible _ hmem)

end

end Metrics

end TypeStub
