import Mathlib.Data.List.Basic
import ScriptEditor.Markup

namespace ScriptEditor.Markup

def IsSpecial (c : Char) : Prop := c = '&' ∨ c = '<' ∨ c = '>'

instance : DecidablePred IsSpecial := fun _ => inferInstanceAs (Decidable (_ ∨ _ ∨ _))

/-- What may stand behind the ampersand of an entity. -/
def entityTails : List Text := ["amp;", "lt;", "gt;"].map String.toList

structure IsEscaped (e : Text) : Prop where
  no_lt : '<' ∉ e
  no_gt : '>' ∉ e
  entities : ∀ p q, e = p ++ '&' :: q → ∃ tail ∈ entityTails, tail <+: q

/-- The text of which this is the escaped form; none if a special character stands for itself. -/
def unescape? : Text → Option Text
  | [] => some []
  | '&' :: 'a' :: 'm' :: 'p' :: ';' :: t => (unescape? t).map ('&' :: ·)
  | '&' :: 'l' :: 't' :: ';' :: t => (unescape? t).map ('<' :: ·)
  | '&' :: 'g' :: 't' :: ';' :: t => (unescape? t).map ('>' :: ·)
  | c :: t => if IsSpecial c then none else (unescape? t).map (c :: ·)

@[simp] theorem escape_nil : escape [] = [] := rfl

@[simp] theorem escape_cons (c : Char) (t : Text) : escape (c :: t) = escapeChar c ++ escape t := by
  rw [escape, List.flatMap_cons]
  rfl

@[simp] theorem escape_append (s t : Text) : escape (s ++ t) = escape s ++ escape t :=
  List.flatMap_append

theorem escapeChar_ne_nil (c : Char) : escapeChar c ≠ [] := by
  unfold escapeChar
  repeat' split
  all_goals simp

theorem escape_eq_nil {t : Text} : escape t = [] ↔ t = [] := by
  cases t with
  | nil => simp
  | cons c t => simp [escapeChar_ne_nil]

theorem plain_eq (source : Text) :
    plain source = if source = [] then placeholder else escape source := by
  cases source with
  | nil => rfl
  | cons c t =>
    have hne : escape (c :: t) ≠ [] := mt escape_eq_nil.1 (List.cons_ne_nil c t)
    rw [plain, orPlaceholder, if_neg (mt List.isEmpty_iff.1 hne), if_neg (List.cons_ne_nil c t)]

theorem escapeChar_of_plain {c : Char} (h : ¬ IsSpecial c) : escapeChar c = [c] := by
  simp only [IsSpecial, not_or] at h
  rw [escapeChar, if_neg h.1, if_neg h.2.1, if_neg h.2.2]

theorem escapeChar_of_special {c : Char} (h : IsSpecial c) :
    ∃ tail ∈ entityTails, escapeChar c = '&' :: tail := by
  rcases h with rfl | rfl | rfl
  · exact ⟨_, List.mem_cons_self, rfl⟩
  · exact ⟨_, List.mem_cons_of_mem _ List.mem_cons_self, rfl⟩
  · exact ⟨_, List.mem_cons_of_mem _ (List.mem_cons_of_mem _ List.mem_cons_self), rfl⟩

theorem not_mem_tail {c : Char} (h : IsSpecial c) : ∀ tail ∈ entityTails, c ∉ tail := by
  rcases h with rfl | rfl | rfl
  all_goals decide

theorem unescape?_cons_of_plain {c : Char} (h : ¬ IsSpecial c) (t : Text) :
    unescape? (c :: t) = (unescape? t).map (c :: ·) := by
  have hc : c ≠ '&' := fun hc => h (Or.inl hc)
  rw [unescape?, if_neg h]
  all_goals exact fun _ heq => (hc heq).elim

theorem unescape?_escape (t : Text) : unescape? (escape t) = some t := by
  induction t with
  | nil => rfl
  | cons c t ih =>
    by_cases hc : IsSpecial c
    · rcases hc with rfl | rfl | rfl
      all_goals
        rw [escape_cons]
        change (unescape? (escape t)).map _ = _
        rw [ih]
        rfl
    · rw [escape_cons, escapeChar_of_plain hc, List.singleton_append, unescape?_cons_of_plain hc, ih]
      rfl

theorem not_mem_escape {c : Char} (h : c = '<' ∨ c = '>') (t : Text) : c ∉ escape t := by
  intro hmem
  obtain ⟨d, -, hd⟩ := List.mem_flatMap.1 hmem
  by_cases hspecial : IsSpecial d
  · obtain ⟨tail, htail, heq⟩ := escapeChar_of_special hspecial
    rw [heq, List.mem_cons] at hd
    rcases hd with rfl | hd
    · revert h
      decide
    · exact not_mem_tail (Or.inr h) tail htail hd
  · rw [escapeChar_of_plain hspecial, List.mem_singleton] at hd
    exact hspecial (Or.inr (hd ▸ h))

/-- An ampersand in the escaped form of a character is the first character of an entity. -/
theorem tail_of_escapeChar {c : Char} {p r : Text} (h : escapeChar c = p ++ '&' :: r) :
    r ∈ entityTails := by
  by_cases hc : IsSpecial c
  · obtain ⟨tail, htail, heq⟩ := escapeChar_of_special hc
    rw [heq] at h
    cases p with
    | nil =>
      have hr : tail = r := (List.cons.inj h).2
      exact hr ▸ htail
    | cons d p =>
      have hmem : '&' ∈ tail := by
        rw [(List.cons.inj h).2]
        simp
      exact (not_mem_tail (Or.inl rfl) tail htail hmem).elim
  · have hmem : '&' ∈ escapeChar c := by
      rw [h]
      simp
    rw [escapeChar_of_plain hc, List.mem_singleton] at hmem
    exact (hc (Or.inl hmem.symm)).elim

theorem isEscaped_escape (t : Text) : IsEscaped (escape t) where
  no_lt := not_mem_escape (Or.inl rfl) t
  no_gt := not_mem_escape (Or.inr rfl) t
  entities := by
    induction t with
    | nil => intro p q h; simp at h
    | cons c t ih =>
      intro p q h
      rw [escape_cons, List.append_eq_append_iff] at h
      rcases h with ⟨a, hp, ht⟩ | ⟨a, hc, hq⟩
      · exact ih a q ht
      · cases a with
        | nil => exact ih [] q hq.symm
        | cons d a =>
          obtain ⟨rfl, rfl⟩ := List.cons.inj hq
          exact ⟨a, tail_of_escapeChar hc, a.prefix_append (escape t)⟩

end ScriptEditor.Markup
