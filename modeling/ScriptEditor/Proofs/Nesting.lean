import Mathlib.Data.List.TakeWhile
import ScriptEditor.Lexeme
import ScriptEditor.Proofs.Grouping

namespace ScriptEditor

/-- The token with the index is the one character. -/
def IsCharAt (c : Char) (tokens : List Token) (i : Nat) : Prop := ∃ t ∈ tokens[i]?, t.isChar c

instance (c : Char) (tokens : List Token) (i : Nat) : Decidable (IsCharAt c tokens i) :=
  inferInstanceAs (Decidable (∃ _ ∈ _, _))

/-- The first index from `i` on at which a token is the one character. -/
structure IsFirstFrom (c : Char) (tokens : List Token) (i k : Nat) : Prop where
  le : i ≤ k
  isCharAt : IsCharAt c tokens k
  not_before : ∀ m, i ≤ m → m < k → ¬ IsCharAt c tokens m

/-- The tokens from the index `i` to the index `j`, both of these included, are a group. -/
def IsGroupAt (opening closing : Char) (tokens : List Token) (i j : Nat) : Prop :=
  ∃ before group after, tokens = before ++ (group ++ after) ∧ before.length = i ∧
    i + group.length = j + 1 ∧ IsGroup (Token.isChar opening) (Token.isChar closing) group

variable {opening closing c : Char} {tokens front rest : List Token} {i j k : Nat}

/-- A counter that can count all tokens is never too small for the scan. -/
theorem countedIndex?_eq {limit depth index : Nat} (h : depth + tokens.length ≤ limit) :
    countedIndex? opening closing limit depth index tokens =
      some (closingIndex? opening closing depth index tokens) := by
  -- The depth grows by one at most for each token that is read, so the sum never grows.
  induction tokens generalizing depth index with
  | nil => rfl
  | cons t rest ih =>
    rw [List.length_cons] at h
    rw [countedIndex?.eq_def, closingIndex?.eq_def]
    dsimp only
    split_ifs
    case pos => exact ih (by omega)
    case neg => exact absurd h (by omega)
    case pos =>
      rcases depth with _ | _ | d
      · rfl
      · rfl
      · exact ih (by omega)
    case neg => exact ih (by omega)

theorem closingIndex?_others (hopen : ∀ t ∈ front, ¬ t.isChar opening)
    (hclose : ∀ t ∈ front, ¬ t.isChar closing) (index : Nat) :
    closingIndex? opening closing 0 index (front ++ rest) =
      closingIndex? opening closing 0 (index + front.length) rest := by
  induction front generalizing index with
  | nil => rfl
  | cons t front ih =>
    rw [List.forall_mem_cons] at hopen hclose
    rw [List.cons_append, closingIndex?_other _ _ _ hopen.1 hclose.1, ih hopen.2 hclose.2,
      List.length_cons, Nat.add_assoc, Nat.add_comm 1]

theorem closingIndex?_of_unopened (hopen : ∀ t ∈ front, ¬ t.isChar opening)
    (hclose : ∃ t ∈ front, t.isChar closing) (index : Nat) :
    closingIndex? opening closing 0 index (front ++ rest) = none := by
  induction front generalizing index with
  | nil => simp at hclose
  | cons t front ih =>
    rw [List.forall_mem_cons] at hopen
    simp only [List.mem_cons, exists_eq_or_imp] at hclose
    rw [List.cons_append]
    by_cases ht : t.isChar closing
    · exact closingIndex?_unopened index _ hopen.1 ht
    · rw [closingIndex?_other _ _ _ hopen.1 ht]
      exact ih hopen.2 (hclose.resolve_left ht) (index + 1)

theorem isCharAt_append_cons_iff {t : Token} :
    IsCharAt c (front ++ t :: rest) front.length ↔ t.isChar c := by
  simp [IsCharAt]

theorem IsCharAt.exists_parts (h : IsCharAt c tokens i) :
    ∃ before t after, tokens = before ++ t :: after ∧ before.length = i ∧ t.isChar c := by
  obtain ⟨t, ht, hchar⟩ := h
  have hlt : i < tokens.length := (List.getElem?_eq_some_iff.1 ht).1
  refine ⟨_, t, _, eq_append_of_getElem? ht, ?_, hchar⟩
  rw [List.length_take, Nat.min_eq_left (Nat.le_of_lt hlt)]

/-- The tokens from `i` on that stand in front of `k` are those with an index between. -/
theorem forall_mem_between_iff {P : Token → Prop} :
    (∀ t ∈ (tokens.drop i).take (k - i), P t) ↔
      ∀ m, i ≤ m → m < k → ∀ t ∈ tokens[m]?, P t := by
  simp only [List.mem_iff_getElem?, List.getElem?_take, List.getElem?_drop]
  constructor
  · intro h m hle hlt t ht
    apply h t
    refine ⟨m - i, ?_⟩
    rw [if_pos (by omega), Nat.add_sub_cancel' hle]
    exact ht
  · rintro h t ⟨n, hn⟩
    obtain ⟨hlt, ht⟩ := Option.ite_none_right_eq_some.1 hn
    exact h (i + n) (by omega) (by omega) t ht

/-- Within balanced brackets, each bracket that opens is closed there. -/
theorem IsBalanced.exists_group {α : Type} {opens closes : α → Bool}
    (hdisjoint : ∀ b, closes b → ¬ opens b) {l front back : List α} {a : α}
    (hl : IsBalanced opens closes l) (hsplit : l = front ++ a :: back) (ha : opens a) :
    ∃ inside b behind, back = inside ++ b :: behind ∧ IsBalanced opens closes inside ∧
      closes b := by
  induction hl generalizing front back with
  | nil => simp at hsplit
  | other hopen _ _ ih =>
    cases front with
    | nil =>
      obtain ⟨rfl, -⟩ := List.cons.inj hsplit
      exact absurd ha hopen
    | cons _ front => exact ih (List.cons.inj hsplit).2
  | @group first last within l _ hwithin hclose _ ihwithin ih =>
    cases front with
    | nil =>
      obtain ⟨-, rfl⟩ := List.cons.inj hsplit
      exact ⟨within, last, l, rfl, hwithin, hclose⟩
    | cons _ front =>
      -- The bracket is within the group, or it is its last one, or it is behind it.
      have hrest : within ++ last :: l = front ++ a :: back := (List.cons.inj hsplit).2
      rcases List.append_eq_append_iff.1 hrest with ⟨u, rfl, hu⟩ | ⟨u, hu, hback⟩
      · cases u with
        | nil =>
          obtain ⟨rfl, -⟩ := List.cons.inj hu
          exact absurd ha (hdisjoint _ hclose)
        | cons _ u => exact ih (List.cons.inj hu).2
      · cases u with
        | nil =>
          obtain ⟨rfl, -⟩ := List.cons.inj hback
          exact absurd ha (hdisjoint _ hclose)
        | cons _ u =>
          obtain ⟨rfl, rfl⟩ := List.cons.inj hback
          obtain ⟨inside, b, behind, rfl, hinside, hb⟩ := ihwithin hu
          exact ⟨inside, b, behind ++ last :: l, by simp, hinside, hb⟩

theorem isGroupAt_append_iff {first : Token} (hfirst : first.isChar opening) :
    IsGroupAt opening closing (front ++ first :: rest) front.length j ↔
      ∃ inside last behind, rest = inside ++ last :: behind ∧
        IsBalanced (Token.isChar opening) (Token.isChar closing) inside ∧ last.isChar closing ∧
        j = front.length + 1 + inside.length := by
  constructor
  · rintro ⟨before, group, after, htokens, hlength, hj, first', inside, last, rfl, -, hinside, hlast⟩
    obtain ⟨rfl, hrest⟩ := List.append_inj htokens.symm hlength
    have hparts : rest = inside ++ last :: after := by simpa using (List.cons.inj hrest).2.symm
    refine ⟨inside, last, after, hparts, hinside, hlast, ?_⟩
    simp only [List.length_cons, List.length_append, List.length_nil] at hj
    omega
  · rintro ⟨inside, last, behind, rfl, hinside, hlast, rfl⟩
    refine ⟨front, first :: (inside ++ [last]), behind, by simp, rfl, ?_,
      first, inside, last, rfl, hfirst, hinside, hlast⟩
    simp only [List.length_cons, List.length_append, List.length_nil]
    omega

theorem IsGroupAt.exists_parts (h : IsGroupAt opening closing tokens i j) :
    ∃ before first inside last after, tokens = before ++ first :: (inside ++ last :: after) ∧
      before.length = i ∧ i + 1 + inside.length = j ∧ first.isChar opening ∧
      IsBalanced (Token.isChar opening) (Token.isChar closing) inside ∧ last.isChar closing := by
  obtain ⟨before, group, after, rfl, hi, hj, first, inside, last, rfl, hfirst, hinside, hlast⟩ := h
  refine ⟨before, first, inside, last, after, by simp, hi, ?_, hfirst, hinside, hlast⟩
  simp only [List.length_cons, List.length_append, List.length_nil] at hj
  omega

theorem IsGroupAt.isCharAt_opening (h : IsGroupAt opening closing tokens i j) :
    IsCharAt opening tokens i := by
  obtain ⟨before, first, inside, last, after, rfl, rfl, -, hfirst, -, -⟩ := h.exists_parts
  exact isCharAt_append_cons_iff.2 hfirst

theorem matchingIndex?_append (index : Nat) (hindex : index = front.length) :
    matchingIndex? opening closing (front ++ rest) index =
      closingIndex? opening closing 0 index rest := by
  rw [matchingIndex?, hindex, List.drop_left]

theorem matchingIndex?_eq_some_iff (hne : opening ≠ closing) (hi : IsCharAt opening tokens i) :
    matchingIndex? opening closing tokens i = some j ↔ IsGroupAt opening closing tokens i j := by
  obtain ⟨before, first, after, rfl, rfl, hfirst⟩ := hi.exists_parts
  rw [matchingIndex?_append _ rfl, closingIndex?_opening _ _ _ hfirst, closingIndex?_eq_some_iff hne,
    isGroupAt_append_iff hfirst]

theorem IsGroupAt.unique (hne : opening ≠ closing) (h : IsGroupAt opening closing tokens i j)
    {j' : Nat} (h' : IsGroupAt opening closing tokens i j') : j = j' := by
  have hi := h.isCharAt_opening
  rw [← matchingIndex?_eq_some_iff hne hi] at h h'
  exact Option.some.inj (h.symm.trans h')

theorem drop_eq_append_drop (hle : i ≤ k) :
    tokens.drop i = (tokens.drop i).take (k - i) ++ tokens.drop k := by
  calc
    tokens.drop i = (tokens.drop i).take (k - i) ++ (tokens.drop i).drop (k - i) :=
      (List.take_append_drop _ _).symm
    _ = (tokens.drop i).take (k - i) ++ tokens.drop k := by
      rw [List.drop_drop, Nat.add_sub_cancel' hle]

theorem matchingIndex?_of_none_opens (h : ∀ k, i ≤ k → ¬ IsCharAt opening tokens k) :
    matchingIndex? opening closing tokens i = none := by
  have hall : (tokens.drop i).take (tokens.length - i) = tokens.drop i :=
    List.take_of_length_le (by rw [List.length_drop])
  have hopen : ∀ t ∈ tokens.drop i, ¬ t.isChar opening := by
    rw [← hall, forall_mem_between_iff]
    intro m hle _ t ht hchar
    exact h m hle ⟨t, ht, hchar⟩
  -- The scan ends early at a bracket that closes, or else comes to the end at depth zero.
  rw [matchingIndex?, ← List.append_nil (tokens.drop i)]
  by_cases hclose : ∃ t ∈ tokens.drop i, t.isChar closing
  · exact closingIndex?_of_unopened hopen hclose i
  · rw [closingIndex?_others hopen fun t ht hchar => hclose ⟨t, ht, hchar⟩]
    rfl

section

variable (h : IsFirstFrom opening tokens i k)
include h

theorem IsFirstFrom.not_opening : ∀ t ∈ (tokens.drop i).take (k - i), ¬ t.isChar opening := by
  rw [forall_mem_between_iff]
  intro m hle hlt t ht hchar
  exact h.not_before m hle hlt ⟨t, ht, hchar⟩

theorem IsFirstFrom.matchingIndex?_eq_none
    (hclose : ∃ m, i ≤ m ∧ m < k ∧ IsCharAt closing tokens m) :
    matchingIndex? opening closing tokens i = none := by
  obtain ⟨m, hle, hlt, t, ht, hchar⟩ := hclose
  rw [matchingIndex?, drop_eq_append_drop h.le]
  apply closingIndex?_of_unopened h.not_opening
  by_contra hnone
  have hnot : ∀ t ∈ (tokens.drop i).take (k - i), ¬ t.isChar closing := by
    intro u hu hchar'
    exact hnone ⟨u, hu, hchar'⟩
  exact forall_mem_between_iff.1 hnot m hle hlt t ht hchar

/-- Up to the first bracket that opens, the lookup passes over what does not close one. -/
theorem IsFirstFrom.matchingIndex?_eq
    (hclose : ∀ m, i ≤ m → m < k → ¬ IsCharAt closing tokens m) :
    matchingIndex? opening closing tokens i = matchingIndex? opening closing tokens k := by
  obtain ⟨before, first, after, rfl, rfl, -⟩ := h.isCharAt.exists_parts
  have hnot : ∀ t ∈ ((before ++ first :: after).drop i).take (before.length - i),
      ¬ t.isChar closing := by
    rw [forall_mem_between_iff]
    intro m hle hlt t ht hchar
    exact hclose m hle hlt ⟨t, ht, hchar⟩
  have hlength : i + (((before ++ first :: after).drop i).take (before.length - i)).length =
      before.length := by
    have hle := h.le
    rw [List.length_take, List.length_drop, List.length_append]
    omega
  rw [matchingIndex?, drop_eq_append_drop h.le, closingIndex?_others h.not_opening hnot, hlength,
    matchingIndex?]

end

/-- The bracket at the end of a group opens none. -/
theorem IsGroupAt.not_isCharAt_opening (hne : opening ≠ closing)
    (h : IsGroupAt opening closing tokens i j) : ¬ IsCharAt opening tokens j := by
  obtain ⟨before, first, inside, last, after, rfl, rfl, rfl, -, -, hlast⟩ := h.exists_parts
  have hsplit : before ++ first :: (inside ++ last :: after) =
      (before ++ first :: inside) ++ last :: after := by simp
  have hlength : before.length + 1 + inside.length = (before ++ first :: inside).length := by
    rw [List.length_append, List.length_cons, Nat.add_assoc, Nat.add_comm 1]
  rw [hsplit, hlength, isCharAt_append_cons_iff]
  exact not_isChar_of_ne hne hlast

/-- A bracket that opens within a group is closed within it. -/
theorem IsGroupAt.exists_within (hne : opening ≠ closing)
    (h : IsGroupAt opening closing tokens i j) (hk : IsCharAt opening tokens k) (hik : i < k)
    (hkj : k < j) : ∃ m, m < j ∧ IsGroupAt opening closing tokens k m := by
  obtain ⟨before, first, inside, last, after, rfl, rfl, rfl, -, hinside, -⟩ := h.exists_parts
  -- The bracket at `k` is the one with the index `n` inside of the group.
  obtain ⟨n, rfl⟩ := Nat.exists_eq_add_of_lt hik
  have hn : n < inside.length := by omega
  obtain ⟨front, a, back, rfl, rfl⟩ :
      ∃ front a back, inside = front ++ a :: back ∧ front.length = n := by
    refine ⟨_, _, _, eq_append_of_getElem? (List.getElem?_eq_getElem hn), ?_⟩
    rw [List.length_take, Nat.min_eq_left (Nat.le_of_lt hn)]
  have hsplit : before ++ first :: (front ++ a :: back ++ last :: after) =
      (before ++ first :: front) ++ a :: (back ++ last :: after) := by simp
  have hlength : before.length + front.length + 1 = (before ++ first :: front).length := by
    rw [List.length_append, List.length_cons, Nat.add_assoc]
  rw [hsplit, hlength] at hk ⊢
  rw [isCharAt_append_cons_iff] at hk
  obtain ⟨within, b, behind, rfl, hwithin, hb⟩ :=
    hinside.exists_group (fun _ hb => not_isChar_of_ne hne hb) rfl hk
  refine ⟨(before ++ first :: front).length + 1 + within.length, ?_, ?_⟩
  · simp only [List.length_append, List.length_cons]
    omega
  · rw [isGroupAt_append_iff hk]
    exact ⟨within, b, behind ++ last :: after, List.append_assoc _ _ _, hwithin, hb, rfl⟩

/-- Of two groups, the one that begins first is over when the other begins, or ends behind it. -/
theorem IsGroupAt.nested_or_disjoint (hne : opening ≠ closing) {i' j' : Nat}
    (h : IsGroupAt opening closing tokens i j) (h' : IsGroupAt opening closing tokens i' j')
    (hlt : i < i') : j < i' ∨ j' < j := by
  have hopen : IsCharAt opening tokens i' := h'.isCharAt_opening
  rcases Nat.lt_trichotomy i' j with hwithin | rfl | hbehind
  -- A group that begins within the other ends where the other closes it, as groups are unique.
  · obtain ⟨m, hm, hgroup⟩ := h.exists_within hne hopen hlt hwithin
    right
    rwa [h'.unique hne hgroup]
  · exact absurd hopen (h.not_isCharAt_opening hne)
  · exact .inl hbehind

/-- The lookup of the bracket that closes a group finds the ends of groups, goes on to the first
bracket that opens, and has room to count; the groups that it finds are nested or disjoint. -/
theorem matchingIndex?_finds_groups (hne : opening ≠ closing) (tokens : List Token) :
    (∀ i, countedIndex? opening closing tokens.length 0 i (tokens.drop i) =
      some (matchingIndex? opening closing tokens i)) ∧
    (∀ i, IsCharAt opening tokens i →
      (∀ j, matchingIndex? opening closing tokens i = some j ↔
        IsGroupAt opening closing tokens i j) ∧
      (∀ j j', IsGroupAt opening closing tokens i j → IsGroupAt opening closing tokens i j' →
        j = j') ∧
      (matchingIndex? opening closing tokens i = none ↔
        ∀ j, ¬ IsGroupAt opening closing tokens i j)) ∧
    (∀ i,
      ((∀ k, i ≤ k → ¬ IsCharAt opening tokens k) →
        matchingIndex? opening closing tokens i = none) ∧
      ∀ k, IsFirstFrom opening tokens i k →
        ((∃ m, i ≤ m ∧ m < k ∧ IsCharAt closing tokens m) →
          matchingIndex? opening closing tokens i = none) ∧
        ((∀ m, i ≤ m → m < k → ¬ IsCharAt closing tokens m) →
          matchingIndex? opening closing tokens i = matchingIndex? opening closing tokens k)) ∧
    ∀ i i' j j', IsCharAt opening tokens i → IsCharAt opening tokens i' →
      matchingIndex? opening closing tokens i = some j →
      matchingIndex? opening closing tokens i' = some j' →
        (i ≤ i' ∧ j' ≤ j) ∨ (i' ≤ i ∧ j ≤ j') ∨ j < i' ∨ j' < i := by
  refine ⟨?_, ?_, ?_, ?_⟩
  · intro i
    rw [matchingIndex?]
    apply countedIndex?_eq
    rw [List.length_drop]
    omega
  · intro i hi
    have hiff (j : Nat) := matchingIndex?_eq_some_iff hne hi (j := j)
    refine ⟨hiff, fun j j' h h' => h.unique hne h', ?_⟩
    rw [Option.eq_none_iff_forall_ne_some]
    exact forall_congr' fun j => not_congr (hiff j)
  · intro i
    constructor
    · exact matchingIndex?_of_none_opens
    · intro k hk
      exact ⟨hk.matchingIndex?_eq_none, hk.matchingIndex?_eq⟩
  · intro i i' j j' hi hi' hj hj'
    have hgroup := (matchingIndex?_eq_some_iff hne hi).1 hj
    have hgroup' := (matchingIndex?_eq_some_iff hne hi').1 hj'
    rcases Nat.lt_trichotomy i i' with hlt | rfl | hlt
    · have hends := hgroup.nested_or_disjoint hne hgroup' hlt
      omega
    · have hends := hgroup.unique hne hgroup'
      omega
    · have hends := hgroup'.nested_or_disjoint hne hgroup hlt
      omega

/-- From a name on, the lookup finds the group behind it, and within that one another; the last
bracket is not closed. -/
theorem matchingIndex?_finds_groups_nested :
    '[' ≠ ']' ∧ ∃ tokens, lex "a[b[c]d]e[".toList = tokens ∧
      IsFirstFrom '[' tokens 0 1 ∧ (∀ m, 0 ≤ m → m < 1 → ¬ IsCharAt ']' tokens m) ∧
      IsCharAt '[' tokens 1 ∧ IsCharAt '[' tokens 3 ∧ IsCharAt '[' tokens 9 ∧
      matchingIndex? '[' ']' tokens 0 = matchingIndex? '[' ']' tokens 1 ∧
      IsGroupAt '[' ']' tokens 1 7 ∧ IsGroupAt '[' ']' tokens 3 5 ∧
      ∀ j, ¬ IsGroupAt '[' ']' tokens 9 j := by
  have hne : '[' ≠ ']' := by decide
  let tokens := lex "a[b[c]d]e[".toList
  have hfirst : IsFirstFrom '[' tokens 0 1 := by
    refine ⟨by decide, by decide +kernel, ?_⟩
    decide +kernel
  have hnot : ∀ m, 0 ≤ m → m < 1 → ¬ IsCharAt ']' tokens m := by decide +kernel
  have houter : IsCharAt '[' tokens 1 := by decide +kernel
  have hinner : IsCharAt '[' tokens 3 := by decide +kernel
  have hopen : IsCharAt '[' tokens 9 := by decide +kernel
  obtain ⟨-, hgroups, hfirsts, -⟩ := matchingIndex?_finds_groups hne tokens
  refine ⟨hne, tokens, rfl, hfirst, hnot, houter, hinner, hopen, ?_, ?_, ?_, ?_⟩
  · exact ((hfirsts 0).2 1 hfirst).2 hnot
  · exact ((hgroups 1 houter).1 7).1 (by decide +kernel)
  · exact ((hgroups 3 hinner).1 5).1 (by decide +kernel)
  · exact (hgroups 9 hopen).2.2.1 (by decide +kernel)

end ScriptEditor
