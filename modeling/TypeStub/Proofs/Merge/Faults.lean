import TypeStub.Merge
import TypeStub.Proofs.Ensures

-- Why definitions do not merge.
namespace TypeStub

def Cause.IsMerge : Cause → Prop
  | .unhandledDecorator _ | .severalExternals _ | .mixedExternals _ | .kindsDisagree _
  | .incompatibleSignatures _ | .moduleProperties _ => True
  | _ => False

namespace Merge

-- A fault of merging, with the line that merging was given.
structure FaultAt (line : Option Int) (fault : Fault) : Prop where
  line : fault.line = line
  cause : fault.cause.IsMerge

variable {line : Option Int} {defs group : List Definition} {fault : Fault}

theorem faultAt_property (h : property line group = .error fault) : FaultAt line fault := by
  obtain hm | ⟨told, -, h⟩ := except_bind_error h
  · obtain ⟨d, -, hd⟩ := exists_of_mapM_error hm
    unfold accessor at hd
    split at hd
    · exact Except.error.inj hd ▸ ⟨rfl, trivial⟩
    · split at hd
      · simp at hd
      · exact Except.error.inj hd ▸ ⟨rfl, trivial⟩
  · simp [Pure.pure, Except.pure] at h

theorem faultAt_function (h : function line group = .error fault) : FaultAt line fault := by
  unfold function overloads at h
  dsimp only at h
  split at h
  · split at h
    · simp at h
    · exact Except.error.inj h ▸ ⟨rfl, trivial⟩
  · split at h
    · simp at h
    · exact Except.error.inj h ▸ ⟨rfl, trivial⟩
  · exact Except.error.inj h ▸ ⟨rfl, trivial⟩

theorem faultAt_checkRecognized (h : checkRecognized line group = .error fault) :
    FaultAt line fault := by
  unfold checkRecognized at h
  split at h
  · exact Except.error.inj h ▸ ⟨rfl, trivial⟩
  · simp at h

theorem faultAt_member (h : member line group = .error fault) : FaultAt line fault := by
  obtain hc | ⟨_, -, h⟩ := except_bind_error h
  · exact faultAt_checkRecognized hc
  split at h
  · split at h
    · obtain hp | ⟨constant, -, h⟩ := except_bind_error h
      · exact faultAt_property hp
      · simp [Pure.pure, Except.pure] at h
    · exact Except.error.inj h ▸ ⟨rfl, trivial⟩
  · obtain hf | ⟨f, -, h⟩ := except_bind_error h
    · exact faultAt_function hf
    · simp [Pure.pure, Except.pure] at h

theorem faultAt_classMembers (h : classMembers line defs = .error fault) :
    FaultAt line fault := by
  obtain ⟨group, -, hg⟩ := exists_of_mapM_error h
  exact faultAt_member hg

-- The functions of a module are merged without a line.
theorem faultAt_moduleFunctions (h : moduleFunctions defs = .error fault) :
    FaultAt none fault := by
  obtain hm | ⟨functions, -, h⟩ := except_bind_error h
  · obtain ⟨group, -, hg⟩ := exists_of_mapM_error hm
    obtain hc | ⟨_, -, hf⟩ := except_bind_error hg
    · exact faultAt_checkRecognized hc
    · exact faultAt_function hf
  · split at h
    · simp [Pure.pure, Except.pure] at h
    · exact Except.error.inj h ▸ ⟨rfl, trivial⟩

end Merge

end TypeStub
