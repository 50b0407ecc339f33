import Mathlib.Data.List.Basic
import TypeStub.Text

-- Texts by what they begin with.
namespace TypeStub

section

variable {beginning text rest : Text}

theorem after?_append (beginning rest : Text) :
    Text.after? beginning (beginning ++ rest) = some rest :=
  List.isPrefixOf?_eq_some_iff_append_eq.mpr rfl

theorem append_of_after? (h : Text.after? beginning text = some rest) : beginning ++ rest = text :=
  List.isPrefixOf?_eq_some_iff_append_eq.mp h

-- Of two beginnings of one text, one begins with the other.
theorem after?_eq_none {other : Text} (h : ¬ beginning <+: other) (h' : ¬ other <+: beginning)
    (rest : Text) : Text.after? beginning (other ++ rest) = none := by
  cases hafter : Text.after? beginning (other ++ rest) with
  | none => rfl
  | some more =>
      have hprefix : beginning <+: other ++ rest := ⟨more, append_of_after? hafter⟩
      rcases List.prefix_or_prefix_of_prefix hprefix (List.prefix_append ..) with hp | hp
      · exact absurd hp h
      · exact absurd hp h'

theorem append_ne_of_not_prefix (h : ¬ beginning <+: text) (rest : Text) :
    beginning ++ rest ≠ text :=
  fun heq => h ⟨rest, heq⟩

end

end TypeStub
