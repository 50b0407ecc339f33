import TypeStub.Load
import TypeStub.Proofs.Build.Declare
import TypeStub.Proofs.Live.Declare

namespace TypeStub

namespace Digest

theorem length_hex (bytes : List UInt8) : (hex bytes).length = 2 * bytes.length := by
  induction bytes with
  | nil => rfl
  | cons byte rest ih =>
      rw [hex, List.flatMap_cons, List.length_append, ← hex, ih, List.length_cons]
      exact Nat.add_comm ..

theorem digit_of_mem_hex {bytes : List UInt8} {c : Char} (h : c ∈ hex bytes) :
    ∃ n < 16, c = Nat.digitChar n := by
  obtain ⟨byte, -, h⟩ := List.mem_flatMap.mp h
  have hlt := byte.toNat_lt
  rcases List.mem_pair.mp h with rfl | rfl
  · exact ⟨byte.toNat / 16, by omega, rfl⟩
  · exact ⟨byte.toNat % 16, by omega, rfl⟩

end Digest

namespace Hasher

-- As with MD5, a digest has sixteen bytes.
def Sized (digest : Hasher) : Prop :=
  ∀ text bytes, digest text = .ok bytes → bytes.length = 16

theorem hex_eq_ok {digest : Hasher} {text name : Text} :
    digest.hex text = .ok name ↔ ∃ bytes, digest text = .ok bytes ∧ name = Digest.hex bytes := by
  unfold hex
  cases digest text <;> simp [Except.map, eq_comm]

theorem digit_of_mem {digest : Hasher} {text name : Text} (h : digest.hex text = .ok name)
    {c : Char} (hc : c ∈ name) : ∃ n < 16, c = Nat.digitChar n := by
  obtain ⟨bytes, -, rfl⟩ := hex_eq_ok.mp h
  exact Digest.digit_of_mem_hex hc

theorem Sized.length {digest : Hasher} (hs : digest.Sized) {text name : Text}
    (h : digest.hex text = .ok name) : name.length = 32 := by
  obtain ⟨bytes, hbytes, rfl⟩ := hex_eq_ok.mp h
  rw [Digest.length_hex, hs text bytes hbytes]

theorem Sized.ne_typing {digest : Hasher} (hs : digest.Sized) {text name : Text}
    (h : digest.hex text = .ok name) : name ≠ "typing" := by
  rintro rfl
  exact absurd (hs.length h) (by decide)

end Hasher

theorem Digest.sized_md5 : md5.Sized := by
  intro text bytes h
  obtain rfl := Except.ok.inj h
  simp [md5Bytes, littleEndian]

namespace Load

open Live

theorem ok_of_toOption {ε α : Type} {outcome : Except ε α} {a : α}
    (h : outcome.toOption = some a) : outcome = .ok a := by
  cases outcome with
  | ok b => exact congrArg Except.ok (Option.some.inj h)
  | error e => exact absurd h (by simp [Except.toOption])

-- Why there is no result, if there is none.
def refusal? {ε α : Type} : Except ε α → Option ε
  | .ok _ => none
  | .error e => some e

theorem error_of_refusal? {ε α : Type} {outcome : Except ε α} {e : ε}
    (h : refusal? outcome = some e) : outcome = .error e := by
  cases outcome with
  | ok a => cases h
  | error found => exact congrArg Except.error (Option.some.inj h)

-- The stages of building a module.
theorem build_ok {name : Text} {target : Target} {body : List Stmt} {built : Declare.Built}
    (h : build name target body = .ok built) :
    ∃ scan state, Prescan.tree (name != "typing") target body = .ok scan ∧
      Declare.moduleOf name scan.liveness body ⟨scan.names, .none⟩ = .ok built state := by
  unfold build at h
  split at h
  · simp at h
  · rename_i scan hscan
    split at h
    · rename_i found state hm
      obtain rfl := (Except.ok.injEq ..).mp h
      exact ⟨scan, state, hscan, hm⟩
    · simp at h

theorem firstFailure?_of_build {name : Text} {target : Target} {body : List Stmt}
    {built : Declare.Built} (h : build name target body = .ok built) :
    firstFailure? target body = none := by
  obtain ⟨scan, last, hscan, -⟩ := build_ok h
  exact firstFailure?_eq_none hscan

-- The names with which the live statements of a tree are built: all that they declare.
def liveNames (name : Text) (target : Target) (body : List Stmt) : Names :=
  declare (Names.empty (name != "typing")) (flatten target body)

-- The module of a tree is that of its live statements.
theorem build_live {name : Text} {target : Target} {body : List Stmt} {built : Declare.Built}
    (h : build name target body = .ok built) :
    ∃ last, Declare.moduleOf name [] (flatten target body) ⟨liveNames name target body, .none⟩ =
      .ok built last := by
  obtain ⟨scan, last, hscan, hm⟩ := build_ok h
  obtain rfl := tree_ok hscan
  rw [moduleOf_flatten name (follows_decisions target [] 0 body)] at hm
  exact ⟨last, hm⟩

-- A tree that does not build has a condition without a value, or its live statements do not build.
theorem build_error {name : Text} {target : Target} {body : List Stmt} {fault : Fault}
    (h : build name target body = .error fault) :
    Prescan.tree (name != "typing") target body = .error fault ∨
      (firstFailure? target body = none ∧
        ∃ last, Declare.moduleOf name [] (flatten target body) ⟨liveNames name target body, .none⟩ =
          .error fault last) := by
  unfold build at h
  split at h
  · rename_i found hscan
    obtain rfl := Except.error.inj h
    exact .inl hscan
  · rename_i scan hscan
    obtain rfl := tree_ok hscan
    dsimp only at h
    rw [moduleOf_flatten name (follows_decisions target [] 0 body)] at h
    split at h
    · simp at h
    · rename_i found state hm
      obtain rfl := Except.error.inj h
      exact .inr ⟨firstFailure?_eq_none hscan, state, hm⟩

variable {digest : Hasher} {request : Request} {source name : Text}

-- Only a source without a name has none because of the digest. It is refused without a place.
theorem moduleName_error {e : DigestError} (h : moduleName digest request source = .error e) :
    request.name = none ∧ digest source = .error e ∧
      load digest request source = .error ⟨e.message, none, request.filename, none, none⟩ := by
  refine ⟨?_, ?_, by rw [load, h]; rfl⟩ <;> unfold moduleName Hasher.hex at h
  · split at h
    · simp at h
    · assumption
  · split at h
    · simp at h
    · cases hd : digest source <;> simp_all [Except.map]

theorem load_of_moduleName (h : moduleName digest request source = .ok name) :
    load digest request source = loadAs name request source := by
  rw [load, h]

-- The stages of a source that is accepted.
theorem load_ok {m : StubModule} (h : load digest request source = .ok m) :
    ∃ name body built, moduleName digest request source = .ok name ∧
      parseSource source = .ok body ∧ build name request.target body = .ok built ∧
      validate built = .ok () ∧ m = qualify request built.module := by
  unfold load at h
  split at h
  · simp at h
  rename_i name hname
  unfold loadAs at h
  split at h
  · simp at h
  · rename_i body hp
    split at h
    · simp at h
    · rename_i built hb
      split at h
      · simp at h
      · rename_i hv
        exact ⟨name, body, built, hname, hp, hb, hv, ((Except.ok.injEq ..).mp h).symm⟩

-- A source that has a name and parses is refused by a later stage, with the fault that it finds.
theorem load_error {body : List Stmt} {d : Diagnostic}
    (hname : moduleName digest request source = .ok name) (hp : parseSource source = .ok body)
    (h : load digest request source = .error d) :
    ∃ fault, d = ofFault request fault ∧
      (build name request.target body = .error fault ∨
        ∃ built, build name request.target body = .ok built ∧ validate built = .error fault) := by
  simp only [load_of_moduleName hname, loadAs, hp] at h
  split at h
  · rename_i fault hb
    exact ⟨fault, (Except.error.inj h).symm, .inl hb⟩
  · rename_i built hb
    split at h
    · rename_i fault hv
      exact ⟨fault, (Except.error.inj h).symm, .inr ⟨built, hb, hv⟩⟩
    · simp at h

-- A property that every stub keeps holds in the module of every source.
theorem shaped_load {N : Names → Prop} {P : Ty → Prop} (hk : Build.Kept N P)
    {target : Target} {body : List Stmt} {built : Declare.Built}
    (hn : ∀ scan, Prescan.tree (name != "typing") target body = .ok scan → N scan.names)
    (hp : parseSource source = .ok body) (hb : build name target body = .ok built) :
    built.module.Shaped P := by
  obtain ⟨scan, state, hscan, hm⟩ := build_ok hb
  refine Declare.shaped_moduleOf hk (parseSource_areWritten hp) ?_ hm
  exact ⟨hn scan hscan, by simp [Convert.Holds, Records.none]⟩

end Load

end TypeStub
