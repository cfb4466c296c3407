import ScriptEditor.Group

/-! The grammar of groups, and the scan that only counts how many are open. -/

namespace ScriptEditor

section Grammar

variable {α : Type} {opens closes : α → Bool}

/-- What may stand between two brackets: groups, and what neither opens nor closes one. -/
inductive IsBalanced (opens closes : α → Bool) : List α → Prop
  | nil : IsBalanced opens closes []
  | other {a : α} {l : List α} (hopen : ¬ opens a) (hclose : ¬ closes a)
      (hrest : IsBalanced opens closes l) : IsBalanced opens closes (a :: l)
  | group {a b : α} {inside l : List α} (hopen : opens a) (hinside : IsBalanced opens closes inside)
      (hclose : closes b) (hrest : IsBalanced opens closes l) :
      IsBalanced opens closes (a :: (inside ++ b :: l))

/-- A bracket that opens, what may stand between two brackets, and a bracket that closes. -/
def IsGroup (opens closes : α → Bool) (g : List α) : Prop :=
  ∃ first inside last, g = first :: (inside ++ [last]) ∧ opens first ∧
    IsBalanced opens closes inside ∧ closes last

namespace IsBalanced

theorem append {k l : List α} (hk : IsBalanced opens closes k) (hl : IsBalanced opens closes l) :
    IsBalanced opens closes (k ++ l) := by
  induction hk with
  | nil => exact hl
  | other hopen hclose _ ih => exact .other hopen hclose ih
  | group hopen hinside hclose _ _ ih =>
    rw [List.cons_append, List.append_assoc, List.cons_append]
    exact .group hopen hinside hclose ih

theorem of_others {l : List α} (h : ∀ a ∈ l, ¬ opens a ∧ ¬ closes a) :
    IsBalanced opens closes l := by
  induction l with
  | nil => exact .nil
  | cons a l ih =>
    obtain ⟨hopen, hclose⟩ := h a List.mem_cons_self
    exact .other hopen hclose (ih fun b hb => h b (List.mem_cons_of_mem a hb))

end IsBalanced

end Grammar

variable {opening closing : Char} {tokens : List Token}

theorem not_isChar_of_ne (hne : opening ≠ closing) {t : Token} (h : t.isChar closing) :
    ¬ t.isChar opening := by
  rw [Token.isChar_iff] at h ⊢
  intro hopening
  rw [h] at hopening
  exact hne (List.cons.inj hopening).1.symm

section Steps

variable {t : Token} (d index : Nat) (rest : List Token)

theorem closingIndex?_opening (hopen : t.isChar opening) :
    closingIndex? opening closing d index (t :: rest) =
      closingIndex? opening closing (d + 1) (index + 1) rest := by
  rw [closingIndex?.eq_def]
  exact if_pos hopen

theorem closingIndex?_other (hopen : ¬ t.isChar opening) (hclose : ¬ t.isChar closing) :
    closingIndex? opening closing d index (t :: rest) =
      closingIndex? opening closing d (index + 1) rest := by
  rw [closingIndex?.eq_def]
  dsimp only
  rw [if_neg hopen, if_neg hclose]

/-- Outside of all brackets, one that closes ends the scan. -/
theorem closingIndex?_unopened (hopen : ¬ t.isChar opening) (hclose : t.isChar closing) :
    closingIndex? opening closing 0 index (t :: rest) = none := by
  rw [closingIndex?.eq_def]
  dsimp only
  rw [if_neg hopen, if_pos hclose]

theorem closingIndex?_closing (hopen : ¬ t.isChar opening) (hclose : t.isChar closing) :
    closingIndex? opening closing (d + 1) index (t :: rest) =
      if d = 0 then some index else closingIndex? opening closing d (index + 1) rest := by
  rw [closingIndex?.eq_def]
  dsimp only
  rw [if_neg hopen, if_pos hclose]
  cases d with
  | zero => rfl
  | succ d => rfl

end Steps

/-- The scan passes over what is balanced, however many brackets are open around it. -/
theorem closingIndex?_balanced (hne : opening ≠ closing) {w : List Token}
    (hw : IsBalanced (Token.isChar opening) (Token.isChar closing) w) (d index : Nat)
    (rest : List Token) :
    closingIndex? opening closing (d + 1) index (w ++ rest) =
      closingIndex? opening closing (d + 1) (index + w.length) rest := by
  induction hw generalizing d index rest with
  | nil => rfl
  | @other t w hopen hclose _ ih =>
    have hlength : index + 1 + w.length = index + (t :: w).length := by
      rw [List.length_cons]
      omega
    rw [List.cons_append, closingIndex?_other _ _ _ hopen hclose, ih, hlength]
  | @group first last inside w hopen _ hclose _ ihinside ih =>
    have hlength : index + 1 + inside.length + 1 + w.length =
        index + (first :: (inside ++ last :: w)).length := by
      simp only [List.length_cons, List.length_append]
      omega
    rw [List.cons_append, List.append_assoc, List.cons_append, closingIndex?_opening _ _ _ hopen,
      ihinside, closingIndex?_closing _ _ _ (not_isChar_of_ne hne hclose) hclose,
      if_neg (Nat.succ_ne_zero d), ih, hlength]

/-- A scan that finds a bracket passes over what is balanced up to the first bracket that closes one
which was open before. If others are open still, it goes on from there. -/
theorem exists_balanced_of_closingIndex? {d index i : Nat}
    (h : closingIndex? opening closing (d + 1) index tokens = some i) :
    ∃ inside last behind, tokens = inside ++ last :: behind ∧
      IsBalanced (Token.isChar opening) (Token.isChar closing) inside ∧ last.isChar closing ∧
      (d = 0 → i = index + inside.length) ∧
      ∀ e, d = e + 1 →
        closingIndex? opening closing (e + 1) (index + inside.length + 1) behind = some i := by
  -- A group is followed by what is behind it, which is shorter, but not by one token only.
  induction hn : tokens.length using Nat.strongRecOn generalizing tokens d index with
  | ind n ih =>
    cases tokens with
    | nil => cases h
    | cons t rest =>
      rw [List.length_cons] at hn
      by_cases hopen : t.isChar opening
      · rw [closingIndex?_opening _ _ _ hopen] at h
        obtain ⟨inside, last, behind, rfl, hinside, hlast, -, hgoes⟩ := ih _ (by omega) h rfl
        rw [List.length_append, List.length_cons] at hn
        obtain ⟨inside', last', behind', rfl, hinside', hlast', hfound, hgoes'⟩ :=
          ih _ (by omega) (hgoes d rfl) rfl
        refine ⟨t :: (inside ++ last :: inside'), last', behind', ?_, ?_, hlast', ?_, ?_⟩
        · simp
        · exact .group hopen hinside hlast hinside'
        · intro hd
          rw [hfound hd]
          simp only [List.length_cons, List.length_append]
          omega
        · intro e he
          rw [← hgoes' e he]
          congr 1
          simp only [List.length_cons, List.length_append]
          omega
      by_cases hclose : t.isChar closing
      · rw [closingIndex?_closing _ _ _ hopen hclose] at h
        refine ⟨[], t, rest, rfl, .nil, hclose, ?_, ?_⟩
        · intro hd
          rw [if_pos hd] at h
          exact (Option.some.inj h).symm
        · rintro e rfl
          rw [if_neg (Nat.succ_ne_zero e)] at h
          exact h
      · rw [closingIndex?_other _ _ _ hopen hclose] at h
        obtain ⟨inside, last, behind, rfl, hinside, hlast, hfound, hgoes⟩ := ih _ (by omega) h rfl
        refine ⟨t :: inside, last, behind, rfl, .other hopen hclose hinside, hlast, ?_, ?_⟩
        · intro hd
          rw [hfound hd, List.length_cons]
          omega
        · intro e he
          rw [← hgoes e he]
          congr 1
          rw [List.length_cons]
          omega

/-- With one bracket open, the scan finds the bracket behind the balanced tokens. -/
theorem closingIndex?_eq_some_iff (hne : opening ≠ closing) {index i : Nat} :
    closingIndex? opening closing 1 index tokens = some i ↔
      ∃ inside last behind, tokens = inside ++ last :: behind ∧
        IsBalanced (Token.isChar opening) (Token.isChar closing) inside ∧ last.isChar closing ∧
        i = index + inside.length := by
  constructor
  · intro h
    obtain ⟨inside, last, behind, htokens, hinside, hlast, hfound, -⟩ :=
      exists_balanced_of_closingIndex? h
    exact ⟨inside, last, behind, htokens, hinside, hlast, hfound rfl⟩
  · rintro ⟨inside, last, behind, rfl, hinside, hlast, rfl⟩
    rw [closingIndex?_balanced hne hinside,
      closingIndex?_closing _ _ _ (not_isChar_of_ne hne hlast) hlast, if_pos rfl]

/-- The group at the front of the tokens, if the first of them opens one. -/
theorem splitGroup?_cons_eq_some_iff (hne : opening ≠ closing) {first : Token}
    (hfirst : first.isChar opening) {inside behind : List Token} :
    splitGroup? opening closing (first :: tokens) = some (inside, behind) ↔
      ∃ last, tokens = inside ++ last :: behind ∧
        IsBalanced (Token.isChar opening) (Token.isChar closing) inside ∧ last.isChar closing := by
  rw [splitGroup?, closingIndex?_opening _ _ _ hfirst, Option.map_eq_some_iff]
  constructor
  · rintro ⟨i, hi, heq⟩
    obtain ⟨inside', last, behind', rfl, hinside, hlast, rfl⟩ :=
      (closingIndex?_eq_some_iff hne).1 hi
    have hparts : inside' = inside ∧ behind' = behind := by
      have hlength : 0 + 1 + inside'.length + 1 = inside'.length + 1 + 1 := by omega
      rw [Prod.mk.injEq, hlength, Nat.add_comm (0 + 1)] at heq
      simpa using heq
    obtain ⟨rfl, rfl⟩ := hparts
    exact ⟨last, rfl, hinside, hlast⟩
  · rintro ⟨last, rfl, hinside, hlast⟩
    refine ⟨1 + inside.length, ?_, ?_⟩
    · apply (closingIndex?_eq_some_iff hne).2
      exact ⟨inside, last, behind, rfl, hinside, hlast, by omega⟩
    · rw [Nat.add_comm 1]
      simp

end ScriptEditor
