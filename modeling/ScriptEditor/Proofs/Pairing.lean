import Mathlib.Algebra.Group.Nat.Even
import Mathlib.Data.List.DropRight
import Mathlib.Order.Bounds.Basic
import ScriptEditor.Proofs.Scanning

namespace ScriptEditor

/-- How many backslashes stand in a row at the end of the text. -/
def backslashRun (t : Text) : Nat := (t.rtakeWhile (· == '\\')).length

/-- So many backslashes stand in a row right in front of `stop`, all of them behind `start`. -/
def HasBackslashes (source : Text) (start stop n : Nat) : Prop :=
  start + n < stop ∧ source.slice? (stop - n) stop = some (List.replicate n '\\')

/-- A quote behind `start` that has an even number of backslashes right in front of it. -/
structure IsBareQuote (source : Text) (start q : Nat) : Prop where
  behind : start < q
  quote : source.slice? q (q + 1) = some ['"']
  even : ∃ n, IsGreatest {n | HasBackslashes source start q n} n ∧ Even n

/-- Where the literal that is opened at `start` ends: behind the first bare quote, and with the
source if there is none. -/
structure IsLiteralEnd (source : Text) (start stop : Nat) : Prop where
  behind : start < stop
  isBoundary : source.isBoundary stop
  closes_or_takes_all : (∃ q, IsLeast {q | IsBareQuote source start q} q ∧ stop = q + 1) ∨
    (∀ q, ¬ IsBareQuote source start q) ∧ stop = source.byteLength

section

variable {b t : Text} {c : Char} {n : Nat}

theorem backslashRun_le (t : Text) : backslashRun t ≤ t.length :=
  (List.rtakeWhile_suffix (· == '\\') t).length_le

theorem backslashRun_cons (c : Char) (t : Text) :
    backslashRun (c :: t) =
      if c = '\\' ∧ backslashRun t = t.length then backslashRun t + 1 else backslashRun t := by
  have hlength (l : Text) : backslashRun l = (l.reverse.takeWhile (· == '\\')).length := by
    rw [backslashRun, List.rtakeWhile, List.length_reverse]
  rw [hlength, hlength, List.reverse_cons, List.takeWhile_append, List.length_reverse]
  by_cases hall : (t.reverse.takeWhile (· == '\\')).length = t.length
  · by_cases hc : c = '\\' <;> simp [hall, hc]
  · simp [hall]

theorem backslashRun_plain (hc : c ≠ '\\') (t : Text) : backslashRun (c :: t) = backslashRun t := by
  rw [backslashRun_cons, if_neg fun h => hc h.1]

/-- A pair in front of the text makes the run at its end longer by two, or leaves it as it is. -/
theorem even_backslashRun_escape (c : Char) (t : Text) :
    Even (backslashRun ('\\' :: c :: t)) ↔ Even (backslashRun t) := by
  have hle := backslashRun_le t
  by_cases h : c = '\\' ∧ backslashRun t = t.length
  · -- There is nothing but backslashes, and two more of them.
    have hpair : backslashRun ('\\' :: c :: t) = backslashRun t + 2 := by
      rw [backslashRun_cons, backslashRun_cons c, if_pos h, h.2, List.length_cons,
        if_pos ⟨rfl, rfl⟩]
    rw [hpair, Nat.even_add_one, Nat.even_add_one, not_not]
  · have hpair : backslashRun ('\\' :: c :: t) = backslashRun t := by
      rw [backslashRun_cons, backslashRun_cons c, if_neg h, List.length_cons]
      exact if_neg fun hall => by omega
    rw [hpair]

theorem le_backslashRun_iff : n ≤ backslashRun t ↔ List.replicate n '\\' <:+ t := by
  constructor
  · intro hle
    have hrun : t.rtakeWhile (· == '\\') = List.replicate (backslashRun t) '\\' := by
      apply List.eq_replicate_iff.2
      refine ⟨rfl, fun c hc => ?_⟩
      have hslash := List.mem_rtakeWhile_imp hc
      exact beq_iff_eq.1 hslash
    have hsuffix : List.replicate n '\\' <:+ List.replicate (backslashRun t) '\\' := by
      refine ⟨List.replicate (backslashRun t - n) '\\', ?_⟩
      rw [List.replicate_append_replicate, Nat.sub_add_cancel hle]
    rw [← hrun] at hsuffix
    exact hsuffix.trans (List.rtakeWhile_suffix (· == '\\') t)
  · rintro ⟨a, rfl⟩
    have hall : ∀ c ∈ List.replicate n '\\', (c == '\\') = true :=
      fun c hc => beq_iff_eq.2 (List.eq_of_mem_replicate hc)
    rw [backslashRun, List.rtakeWhile, List.length_reverse, List.reverse_append,
      List.reverse_replicate, List.takeWhile_append_of_pos hall, List.length_append,
      List.length_replicate]
    exact Nat.le_add_right n _

/-- A quote right behind the text would be bare, and none in it is. -/
structure AwaitsQuote (b : Text) : Prop where
  even : Even (backslashRun b)
  quotes : ∀ v r, b = v ++ '"' :: r → ¬ Even (backslashRun v)

theorem awaitsQuote_escape_iff : AwaitsQuote ('\\' :: c :: b) ↔ AwaitsQuote b := by
  constructor
  · intro h
    refine ⟨(even_backslashRun_escape c b).1 h.even, ?_⟩
    rintro v r rfl
    exact mt (even_backslashRun_escape c v).2 (h.quotes ('\\' :: c :: v) r rfl)
  · intro h
    refine ⟨(even_backslashRun_escape c b).2 h.even, ?_⟩
    intro v r hv
    match v with
    | [] => cases hv
    | [_] =>
      -- The quote is the escaped character, and has the one backslash of the pair in front.
      obtain ⟨rfl, -⟩ := List.cons.inj hv
      decide
    | _ :: _ :: v =>
      simp only [List.cons_append, List.cons.injEq] at hv
      obtain ⟨rfl, rfl, hrest⟩ := hv
      exact mt (even_backslashRun_escape _ v).1 (h.quotes v r hrest)

theorem awaitsQuote_plain_iff (hq : c ≠ '"') (hs : c ≠ '\\') :
    AwaitsQuote (c :: b) ↔ AwaitsQuote b := by
  constructor
  · intro h
    refine ⟨backslashRun_plain hs b ▸ h.even, ?_⟩
    rintro v r rfl
    exact backslashRun_plain hs v ▸ h.quotes (c :: v) r rfl
  · intro h
    refine ⟨(backslashRun_plain hs b).symm ▸ h.even, ?_⟩
    intro v r hv
    match v with
    | [] => exact absurd (List.cons.inj hv).1 hq
    | _ :: v =>
      obtain ⟨rfl, hrest⟩ := List.cons.inj hv
      exact (backslashRun_plain hs v).symm ▸ h.quotes v r hrest

/-- Such a text does not begin with a quote, which would be bare there. -/
theorem AwaitsQuote.ne_quote (h : AwaitsQuote (c :: b)) : c ≠ '"' := by
  rintro rfl
  exact h.quotes [] b rfl (by decide)

theorem isLiteralBody_iff : IsLiteralBody b ↔ AwaitsQuote b := by
  constructor
  · intro hb
    induction hb with
    | nil => exact ⟨by decide, by simp⟩
    | escape _ ih => exact awaitsQuote_escape_iff.2 ih
    | plain hq hs _ ih => exact (awaitsQuote_plain_iff hq hs).2 ih
  · intro h
    -- In two steps, as a pair of the grammar has two characters.
    induction b using List.twoStepInduction with
    | nil => exact .nil
    | singleton c =>
      have hs : c ≠ '\\' := by
        rintro rfl
        exact absurd h.even (by decide)
      exact .plain h.ne_quote hs .nil
    | cons_cons c d b ih ihrest =>
      by_cases hs : c = '\\'
      · subst hs
        exact .escape (ih (awaitsQuote_escape_iff.1 h))
      · exact .plain h.ne_quote hs (ihrest d ((awaitsQuote_plain_iff h.ne_quote hs).1 h))

/-- If there is a bare quote there is a first one, and what is in front of that is a body. -/
theorem exists_body_of_even {v r : Text} (hv : Even (backslashRun v)) :
    ∃ b r', IsLiteralBody b ∧ v ++ '"' :: r = b ++ '"' :: r' := by
  induction h : v.length using Nat.strongRecOn generalizing v r with
  | ind n ih =>
    by_cases hquotes : ∃ u w, v = u ++ '"' :: w ∧ Even (backslashRun u)
    · obtain ⟨u, w, rfl, hu⟩ := hquotes
      have hlt : u.length < n := by
        rw [← h, List.length_append, List.length_cons]
        omega
      obtain ⟨b, r', hb, hsplit⟩ := ih u.length hlt (r := w ++ '"' :: r) hu rfl
      exact ⟨b, r', hb, by rw [← hsplit, List.append_assoc, List.cons_append]⟩
    · have hfirst : AwaitsQuote v := ⟨hv, fun u w hsplit hu => hquotes ⟨u, w, hsplit, hu⟩⟩
      exact ⟨v, r, isLiteralBody_iff.2 hfirst, rfl⟩

end

section

variable {p b t s : Text} {n q : Nat}

theorem byteLength_opened (p : Text) : Text.byteLength (p ++ ['"']) = p.byteLength + 1 := by
  rw [Text.byteLength_append]
  rfl

/-- The backslashes in front of an offset are those at the end of what the source has between the
opening quote and the offset. -/
theorem hasBackslashes_iff :
    HasBackslashes (p ++ ['"'] ++ b ++ s) p.byteLength (p.byteLength + 1 + b.byteLength) n ↔
      List.replicate n '\\' <:+ b := by
  have hslash : Char.utf8Size '\\' = 1 := rfl
  have hlength : Text.byteLength (List.replicate n '\\') = n := by
    rw [Text.byteLength_replicate, hslash, Nat.mul_one]
  rw [HasBackslashes, Text.slice?_eq_some_iff, hlength]
  constructor
  · rintro ⟨hbehind, x, y, hsplit, hx, -⟩
    -- The row begins behind the opening quote, so all up to that quote is in front of it.
    have hle : Text.byteLength (p ++ ['"']) ≤ x.byteLength := by
      rw [byteLength_opened]
      omega
    rw [List.append_assoc, List.append_assoc x] at hsplit
    obtain ⟨a, rfl, hrest⟩ := Text.exists_between_cuts hsplit hle
    have hcut : Text.byteLength b = Text.byteLength (a ++ List.replicate n '\\') := by
      rw [Text.byteLength_append, byteLength_opened] at hx
      rw [Text.byteLength_append, hlength]
      omega
    rw [← List.append_assoc] at hrest
    exact ⟨a, (Text.eq_of_cuts hrest hcut).symm⟩
  · rintro ⟨a, rfl⟩
    rw [Text.byteLength_append, hlength]
    refine ⟨by omega, p ++ ['"'] ++ a, s, by simp only [List.append_assoc], ?_, by omega⟩
    rw [Text.byteLength_append, byteLength_opened]
    omega

theorem isGreatest_backslashRun :
    IsGreatest {n | HasBackslashes (p ++ ['"'] ++ b ++ s) p.byteLength
      (p.byteLength + 1 + b.byteLength) n} (backslashRun b) := by
  constructor
  · exact hasBackslashes_iff.2 (le_backslashRun_iff.1 (Nat.le_refl _))
  · intro n hn
    exact le_backslashRun_iff.2 (hasBackslashes_iff.1 hn)

theorem isBareQuote_iff :
    IsBareQuote (p ++ ['"'] ++ t) p.byteLength q ↔
      ∃ v r, t = v ++ '"' :: r ∧ p.byteLength + 1 + v.byteLength = q ∧ Even (backslashRun v) := by
  have hquote : Char.utf8Size '"' = 1 := rfl
  constructor
  · rintro ⟨hbehind, hslice, n, hn, heven⟩
    obtain ⟨x, r, hsplit, rfl, -⟩ := Text.slice?_eq_some_iff.1 hslice
    have hle : Text.byteLength (p ++ ['"']) ≤ x.byteLength := by
      rw [byteLength_opened]
      exact hbehind
    rw [List.append_assoc x] at hsplit
    obtain ⟨v, rfl, rfl⟩ := Text.exists_between_cuts hsplit hle
    have hv : p.byteLength + 1 + v.byteLength = Text.byteLength (p ++ ['"'] ++ v) := by
      rw [Text.byteLength_append, byteLength_opened]
    refine ⟨v, r, rfl, hv, ?_⟩
    rw [← hv, ← List.append_assoc] at hn
    rwa [← hn.unique isGreatest_backslashRun]
  · rintro ⟨v, r, rfl, rfl, heven⟩
    rw [← List.append_assoc]
    refine ⟨by omega, ?_, _, isGreatest_backslashRun, heven⟩
    apply Text.slice?_eq_some_iff.2
    refine ⟨p ++ ['"'] ++ v, r, by simp, ?_, by simp [hquote]⟩
    rw [Text.byteLength_append, byteLength_opened]

theorem IsLiteralBody.isLeast_isBareQuote (hb : IsLiteralBody b) (p r : Text) :
    IsLeast {q | IsBareQuote (p ++ ['"'] ++ (b ++ '"' :: r)) p.byteLength q}
      (p.byteLength + 1 + b.byteLength) := by
  have hawaits : AwaitsQuote b := isLiteralBody_iff.1 hb
  constructor
  · exact isBareQuote_iff.2 ⟨b, r, rfl, rfl, hawaits.even⟩
  · intro q hq
    obtain ⟨v, r', hsplit, rfl, hv⟩ := isBareQuote_iff.1 hq
    by_contra hlt
    -- A bare quote that comes before would be in the body.
    obtain ⟨a, rfl, ha⟩ := Text.exists_between_cuts hsplit.symm (by omega)
    cases a with
    | nil => simp at hlt
    | cons d a =>
      obtain ⟨rfl, -⟩ := List.cons.inj ha
      exact hawaits.quotes v a rfl hv

theorem not_isBareQuote (hopen : ¬ ∃ b r, IsLiteralBody b ∧ t = b ++ '"' :: r) (p : Text)
    (q : Nat) : ¬ IsBareQuote (p ++ ['"'] ++ t) p.byteLength q := by
  intro hq
  obtain ⟨v, r, rfl, -, hv⟩ := isBareQuote_iff.1 hq
  exact hopen (exists_body_of_even hv)

theorem isLiteralEnd_literalLength (p t : Text) :
    IsLiteralEnd (p ++ ['"'] ++ t) p.byteLength
      (p.byteLength + Text.byteLength ('"' :: t.take (literalLength 0 t))) where
  behind := by
    have hpos := Char.utf8Size_pos '"'
    rw [Text.byteLength_cons]
    omega
  isBoundary := by
    apply Text.isBoundary_iff.2
    refine ⟨p ++ '"' :: t.take (literalLength 0 t), t.drop (literalLength 0 t), ?_, ?_⟩
    · simp
    · rw [Text.byteLength_append]
  closes_or_takes_all := by
    have hquote : Char.utf8Size '"' = 1 := rfl
    by_cases hclosed : ∃ b r, IsLiteralBody b ∧ t = b ++ '"' :: r
    · obtain ⟨b, r, hb, rfl⟩ := hclosed
      refine Or.inl ⟨_, hb.isLeast_isBareQuote p r, ?_⟩
      rw [take_literalLength_body hb]
      simp only [Text.byteLength_cons, Text.byteLength_append, Text.byteLength_nil, hquote]
      omega
    · have hall := (literal_closes_or_takes_all 0 t).resolve_left hclosed
      refine Or.inr ⟨not_isBareQuote hclosed p, ?_⟩
      rw [hall, Nat.zero_add, List.take_length]
      simp

end

/-- Wherever the source has a quote, the scan from there comes to an end, which is the one that the
runs of backslashes tell. -/
theorem Scan.literalEnd?_isLiteralEnd {source : Text} {start : Nat}
    (hquote : source.slice? start (start + 1) = some ['"']) :
    ∃ stop, literalEnd? source start = some stop ∧ IsLiteralEnd source start stop := by
  obtain ⟨p, t, rfl, rfl, -⟩ := Text.slice?_eq_some_iff.1 hquote
  have hend := literalEnd?_append p t
  rw [← List.singleton_append, ← List.append_assoc] at hend
  exact ⟨_, hend, isLiteralEnd_literalLength p t⟩

/-- An escaped character of two bytes, an escaped quote, and a quote behind two backslashes. -/
theorem Scan.literalEnd?_isLiteralEnd_escapes :
    Text.slice? "é\"\\é\\\"\\\\\" \"".toList 2 3 = some ['"'] ∧
      literalEnd? "é\"\\é\\\"\\\\\" \"".toList 2 = some 11 ∧
      IsLiteralEnd "é\"\\é\\\"\\\\\" \"".toList 2 11 := by
  have hquote : Text.slice? "é\"\\é\\\"\\\\\" \"".toList 2 3 = some ['"'] := by decide
  have hscan : literalEnd? "é\"\\é\\\"\\\\\" \"".toList 2 = some 11 := by decide
  obtain ⟨stop, hstop, hend⟩ := Scan.literalEnd?_isLiteralEnd hquote
  obtain rfl : stop = 11 := Option.some.inj (hstop.symm.trans hscan)
  exact ⟨hquote, hscan, hend⟩

end ScriptEditor
