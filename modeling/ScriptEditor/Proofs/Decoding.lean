import Mathlib.Data.Set.Function
import ScriptEditor.Proofs.Escape

namespace ScriptEditor.Markup

/-- Replaces each of the three entities by its character, from the front on. -/
def unescape : Text → Text
  | [] => []
  | '&' :: 'a' :: 'm' :: 'p' :: ';' :: t => '&' :: unescape t
  | '&' :: 'l' :: 't' :: ';' :: t => '<' :: unescape t
  | '&' :: 'g' :: 't' :: ';' :: t => '>' :: unescape t
  | c :: t => c :: unescape t

variable {e t : Text} {c : Char}

theorem unescape_cons_of_ne (hc : c ≠ '&') (t : Text) : unescape (c :: t) = c :: unescape t := by
  rw [unescape]
  all_goals exact fun _ heq => (hc heq).elim

theorem unescape_escape (t : Text) : unescape (escape t) = t := by
  induction t with
  | nil => rfl
  | cons c t ih =>
    rw [escape_cons]
    by_cases hc : IsSpecial c
    · -- The entity in front is the one of the character, whatever follows it.
      rcases hc with rfl | rfl | rfl
      · exact congrArg ('&' :: ·) ih
      · exact congrArg ('<' :: ·) ih
      · exact congrArg ('>' :: ·) ih
    · have hamp : c ≠ '&' := fun h => hc (Or.inl h)
      rw [escapeChar_of_plain hc, List.singleton_append, unescape_cons_of_ne hamp, ih]

/-- What is behind a part of an escaped text is escaped text. -/
theorem IsEscaped.behind {p : Text} (h : IsEscaped (p ++ e)) : IsEscaped e where
  no_lt := fun hmem => h.no_lt (List.mem_append_right p hmem)
  no_gt := fun hmem => h.no_gt (List.mem_append_right p hmem)
  entities := by
    intro a q he
    apply h.entities (p ++ a) q
    rw [he, List.append_assoc]

/-- At the front of escaped text there is a character that stands for itself, or an entity. -/
theorem IsEscaped.front (h : IsEscaped (c :: e)) :
    ¬ IsSpecial c ∨ c = '&' ∧ ∃ tail ∈ entityTails, tail <+: e := by
  by_cases hamp : c = '&'
  · subst hamp
    exact Or.inr ⟨rfl, h.entities [] e rfl⟩
  · left
    rintro (hc | rfl | rfl)
    · exact hamp hc
    · exact h.no_lt List.mem_cons_self
    · exact h.no_gt List.mem_cons_self

theorem escape_unescape (h : IsEscaped e) : escape (unescape e) = e := by
  fun_induction unescape e with
  | case1 => rfl
  | case2 e ih => exact congrArg ("&amp;".toList ++ ·) (ih (h.behind (p := "&amp;".toList)))
  | case3 e ih => exact congrArg ("&lt;".toList ++ ·) (ih (h.behind (p := "&lt;".toList)))
  | case4 e ih => exact congrArg ("&gt;".toList ++ ·) (ih (h.behind (p := "&gt;".toList)))
  | case5 c e hamp hlt hgt ih =>
    have hrest : IsEscaped e := h.behind (p := [c])
    rcases h.front with hc | ⟨rfl, tail, htail, r, rfl⟩
    · rw [escape_cons, escapeChar_of_plain hc, ih hrest, List.singleton_append]
    · -- An ampersand that stands for itself has none of the entities behind it.
      simp only [entityTails, List.map_cons, List.map_nil, List.mem_cons, List.not_mem_nil,
        or_false] at htail
      rcases htail with rfl | rfl | rfl
      · exact (hamp r rfl rfl).elim
      · exact (hlt r rfl rfl).elim
      · exact (hgt r rfl rfl).elim

theorem eq_escape_of_unescape? (h : unescape? e = some t) : e = escape t := by
  fun_induction unescape? e generalizing t with
  | case1 =>
    cases h
    rfl
  | case2 e ih | case3 e ih | case4 e ih =>
    obtain ⟨u, hu, rfl⟩ := Option.map_eq_some_iff.1 h
    rw [ih hu]
    rfl
  | case5 => cases h
  | case6 c e _ _ _ hc ih =>
    obtain ⟨u, hu, rfl⟩ := Option.map_eq_some_iff.1 h
    rw [escape_cons, escapeChar_of_plain hc, List.singleton_append, ← ih hu]

/-- The reader that refuses a special character takes the escaped texts, and no others. -/
theorem unescape?_eq_some_iff : unescape? e = some t ↔ IsEscaped e ∧ unescape e = t := by
  constructor
  · intro h
    have he : e = escape t := eq_escape_of_unescape? h
    rw [he]
    exact ⟨isEscaped_escape t, unescape_escape t⟩
  · rintro ⟨h, rfl⟩
    calc
      unescape? e = unescape? (escape (unescape e)) := by rw [escape_unescape h]
      _ = some (unescape e) := unescape?_escape (unescape e)

/-- Escaping goes part by part, and matches all texts one to one with those in which no special
character stands for itself; decoding is its inverse on both sides. -/
theorem escape_bijOn_isEscaped :
    (∀ s t, escape (s ++ t) = escape s ++ escape t) ∧
      Set.BijOn escape Set.univ {e | IsEscaped e} ∧
      Set.InvOn unescape escape Set.univ {e | IsEscaped e} ∧
      ∀ e t, unescape? e = some t ↔ IsEscaped e ∧ unescape e = t := by
  have hescaped : Set.MapsTo escape Set.univ {e | IsEscaped e} := fun t _ => isEscaped_escape t
  have hdecoded : Set.MapsTo unescape {e | IsEscaped e} Set.univ := fun e _ => Set.mem_univ _
  have hinverse : Set.InvOn unescape escape Set.univ {e | IsEscaped e} :=
    ⟨fun t _ => unescape_escape t, fun _ h => escape_unescape h⟩
  exact ⟨escape_append, hinverse.bijOn hescaped hdecoded, hinverse,
    fun e t => unescape?_eq_some_iff⟩

/-- Text that looks escaped is decoded once, and an entity that `escape` does not write is none. -/
example : unescape (escape "&amp;lt; &".toList) = "&amp;lt; &".toList ∧
    unescape "&amp;lt;&nbsp;".toList = "&lt;&nbsp;".toList := by decide

end ScriptEditor.Markup
