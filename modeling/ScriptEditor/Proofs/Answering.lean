import ScriptEditor.Proofs.Serving
import Mathlib.Data.List.Induction

namespace ScriptEditor.Background

/-- A sublist with the last member of the whole list is found at increasing indices, up to the
last. -/
theorem exists_indices {α : Type} {picked whole : List α} (hsublist : picked.Sublist whole)
    (hlast : picked.getLast? = whole.getLast?) :
    ∃ indices : List (Fin whole.length), picked = indices.map (whole[·]) ∧
      indices.Pairwise (· < ·) ∧
      ∀ last : Fin whole.length, last + 1 = whole.length → indices.getLast? = some last := by
  cases whole using List.reverseRecOn with
  | nil =>
    refine ⟨[], List.sublist_nil.1 hsublist, List.Pairwise.nil, ?_⟩
    intro last
    exact last.elim0
  | append_singleton front x =>
    rw [List.getLast?_concat] at hlast
    obtain ⟨before, rfl⟩ := List.getLast?_eq_some_iff.1 hlast
    -- The last member goes to the last place, and all before it somewhere in front.
    have hbefore := (List.append_sublist_append_right [x]).1 hsublist
    obtain ⟨indices, hindices, hincreasing⟩ := List.sublist_eq_map_getElem hbefore
    have hlength : (front ++ [x]).length = front.length + 1 := List.length_append
    let place (i : Fin front.length) : Fin (front ++ [x]).length := ⟨i, by omega⟩
    let final : Fin (front ++ [x]).length := ⟨front.length, by omega⟩
    refine ⟨indices.map place ++ [final], ?_, ?_, ?_⟩
    · have hplace (i : Fin front.length) : (front ++ [x])[place i] = front[i] :=
        List.getElem_append_left i.isLt
      have hfinal : (front ++ [x])[final] = x := List.getElem_concat_length rfl _
      calc
        before ++ [x] = indices.map (front[·]) ++ [x] := by rw [hindices]
        _ = indices.map (fun i => (front ++ [x])[place i]) ++ [(front ++ [x])[final]] := by
          simp only [hplace, hfinal]
        _ = (indices.map place ++ [final]).map ((front ++ [x])[·]) := by
          rw [List.map_append, List.map_map]
          rfl
    · rw [List.pairwise_append, List.pairwise_map]
      refine ⟨hincreasing, List.pairwise_singleton _ _, ?_⟩
      intro i hi j hj
      obtain ⟨k, _, rfl⟩ := List.mem_map.1 hi
      rw [List.mem_singleton.1 hj]
      exact k.isLt
    · intro last hlast
      have heq : last = final := Fin.ext (by simp only [final]; omega)
      rw [List.getLast?_concat, heq]

variable [Fingerprint]

namespace Exchange

variable {settings : Settings} {passed picked : List Request} {e e' : Exchange}

end Exchange

end ScriptEditor.Background

namespace ScriptEditor.Background.Exchange

end ScriptEditor.Background.Exchange
