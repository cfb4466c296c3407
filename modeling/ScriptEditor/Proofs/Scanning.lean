import ScriptEditor.Proofs.Literal
import ScriptEditor.Scan

/-! The cutting by offsets never misses a boundary, and finds the tokens that `lex` finds. -/

namespace ScriptEditor

theorem Scan.slice?_middle (p w q : Text) :
    Text.slice? (p ++ w ++ q) p.byteLength (p.byteLength + w.byteLength) = some w :=
  Text.slice?_eq_some_iff.2 ⟨p, q, rfl, rfl, rfl⟩

theorem Text.splice?_middle (front removed behind inserted : Text) :
    (front ++ removed ++ behind).splice? front.byteLength
      (front.byteLength + removed.byteLength) inserted = some (front ++ inserted ++ behind) := by
  rw [splice?, Scan.slice?_middle, Option.map_some, ← byteLength_append, dropBytes_byteLength,
    List.append_assoc front removed, takeBytes_byteLength]

namespace Scan

theorem ofSpan?_middle (kind : Kind) (p w q : Text) :
    Token.ofSpan? kind (p ++ w ++ q) p.byteLength (p.byteLength + w.byteLength) =
      some ⟨kind, w, p.byteLength⟩ := by
  rw [Token.ofSpan?, slice?_middle]
  rfl

theorem behind?_append (p q : Text) : behind? (p ++ q) p.byteLength = some q := by
  have h := slice?_middle p q []
  rw [List.append_nil, ← Text.byteLength_append] at h
  exact h

/-- Where the search for the first fitting character ends: behind all that do not fit. -/
theorem find_charOffsets (test : Char → Bool) (k : Nat) (t : Text) :
    (((charOffsets k t).find? fun x => test x.2).map Prod.fst).getD (k + t.byteLength) =
      k + Text.byteLength (t.takeWhile fun d => !test d) := by
  induction t generalizing k with
  | nil => rfl
  | cons c t ih =>
    rw [charOffsets, List.find?_cons, List.takeWhile_cons]
    cases hc : test c with
    | true => simp
    | false =>
      have h := ih (k + c.utf8Size)
      simp only [Text.byteLength_cons, Bool.not_false, if_true]
      rw [← Nat.add_assoc, ← Nat.add_assoc]
      exact h

theorem firstOffset?_append (test : Char → Bool) (p q : Text) :
    firstOffset? (p ++ q) p.byteLength test =
      some (p.byteLength + Text.byteLength (q.takeWhile fun d => !test d)) := by
  have h := find_charOffsets test 0 q
  rw [firstOffset?, behind?_append]
  cases hfind : (charOffsets 0 q).find? fun x => test x.2 with
  | none =>
    rw [hfind] at h
    simp only [Option.map_none, Option.getD_none, Nat.zero_add] at h
    simp [hfind, ← h]
  | some x =>
    rw [hfind] at h
    simp only [Option.map_some, Option.getD_some, Nat.zero_add] at h
    simp [hfind, ← h]

/-- A search for the end of a run, from a character that belongs to it. -/
theorem firstOffset?_run (test : Char → Bool) {c : Char} (hc : test c) (p t : Text) :
    firstOffset? (p ++ c :: t) p.byteLength (fun d => !test d) =
      some (p.byteLength + Text.byteLength (c :: t.takeWhile test)) := by
  have hrun : (c :: t).takeWhile (fun d => !!test d) = c :: t.takeWhile test := by simp [hc]
  rw [firstOffset?_append, hrun]

/-- Where the search for the closing quote ends: behind the quote, or behind the text. -/
theorem closingQuote_charOffsets (n k : Nat) (t : Text) :
    ((closingQuote? (charOffsets k t)).map (· + 1)).getD (k + t.byteLength) =
      k + Text.byteLength (t.take (literalLength n t - n)) := by
  fun_induction literalLength n t generalizing k with
  | case1 n => simp [charOffsets, closingQuote?]
  | case2 n t =>
    have hone : n + 1 - n = 1 := by omega
    rw [hone]
    rfl
  | case3 n c t ih =>
    have h := ih (k + Char.utf8Size '\\' + c.utf8Size)
    have htake : literalLength (n + 2) t - n = literalLength (n + 2) t - (n + 2) + 2 := by
      have := le_literalLength (n + 2) t
      omega
    rw [htake, List.take_succ_cons, List.take_succ_cons]
    simp only [charOffsets, closingQuote?, Text.byteLength_cons, ← Nat.add_assoc]
    exact h
  | case4 n c t hq hs ih =>
    have h := ih (k + c.utf8Size)
    have htake : literalLength (n + 1) t - n = literalLength (n + 1) t - (n + 1) + 1 := by
      have := le_literalLength (n + 1) t
      omega
    have hskip : closingQuote? ((k, c) :: charOffsets (k + c.utf8Size) t) =
        closingQuote? (charOffsets (k + c.utf8Size) t) := by
      by_cases hc : c = '\\'
      · cases t with
        | nil => rw [hc]; rfl
        | cons d t => exact (hs d t hc rfl).elim
      · rw [closingQuote?]
        · exact fun _ h _ => hc (Prod.mk.inj h).2
        · exact fun _ _ _ h _ => hc (Prod.mk.inj h).2
        · exact fun _ h => hq (Prod.mk.inj h).2
    rw [htake, List.take_succ_cons, charOffsets, hskip]
    simp only [Text.byteLength_cons, ← Nat.add_assoc]
    exact h

theorem literalEnd?_append (p t : Text) :
    literalEnd? (p ++ '"' :: t) p.byteLength =
      some (p.byteLength + Text.byteLength ('"' :: t.take (literalLength 0 t))) := by
  have hsplit : p ++ '"' :: t = (p ++ ['"']) ++ t := by simp
  have hquote : Char.utf8Size '"' = 1 := rfl
  have hlength : p.byteLength + 1 = (p ++ ['"']).byteLength := by simp [hquote]
  have h := closingQuote_charOffsets 0 0 t
  rw [literalEnd?, hlength, hsplit, behind?_append, Text.byteLength_cons, hquote]
  cases hclose : closingQuote? (charOffsets 0 t) with
  | none =>
    rw [hclose] at h
    simp only [Option.map_none, Option.getD_none, Nat.zero_add, Nat.sub_zero] at h
    simp [hclose, hquote, h, Nat.add_assoc]
  | some n =>
    rw [hclose] at h
    simp only [Option.map_some, Option.getD_some, Nat.zero_add, Nat.sub_zero] at h
    simp [hclose, hquote, ← h]
    omega

theorem isPrefixOf_slashes (c : Char) (t : Text) :
    ['/', '/'].isPrefixOf (c :: t) = (c == '/' && t.head? == some '/') := by
  cases t with
  | nil => simp [List.isPrefixOf]
  | cons d t =>
    rw [List.isPrefixOf, List.isPrefixOf, List.isPrefixOf_nil_left, Bool.and_true, List.head?_cons,
      Option.some_beq_some, Bool.beq_comm, Bool.beq_comm (a := '/') (b := d)]

/-- A token at the place that the loop has come to, if it is at the front of what is left. -/
theorem ofSpan?_front (kind : Kind) (p : Text) {q w r : Text} (hq : w ++ r = q) :
    Token.ofSpan? kind (p ++ q) p.byteLength (p.byteLength + w.byteLength) =
      some ⟨kind, w, p.byteLength⟩ := by
  rw [← hq, ← List.append_assoc]
  exact ofSpan?_middle kind p w r

theorem slice?_front (p : Text) {q w r : Text} (hq : w ++ r = q) :
    Text.slice? (p ++ q) p.byteLength (p.byteLength + w.byteLength) = some w := by
  rw [← hq, ← List.append_assoc]
  exact slice?_middle p w r

theorem run_append_rest (test : Char → Bool) (c : Char) (t : Text) :
    (c :: t.takeWhile test) ++ t.dropWhile test = c :: t := by
  rw [List.cons_append, List.takeWhile_append_dropWhile]

theorem token?_append (p : Text) (c : Char) (t : Text) :
    token? (p ++ c :: t) p.byteLength c =
      some ⟨(Lexeme.front c t).kind, (Lexeme.front c t).text, p.byteLength⟩ := by
  have hone : p.byteLength + c.utf8Size = p.byteLength + Text.byteLength [c] := by simp
  have hline : (fun d => d == '\n') = fun d => !(d != '\n') := by
    funext d
    rw [bne, Bool.not_not]
  rw [token?, behind?_append, hline]
  simp only [Option.bind_eq_bind, Option.bind_some, isPrefixOf_slashes, Lexeme.front]
  -- The rules are tried in the same order on both sides.
  split
  case isTrue h =>
    have hc : (c != '\n') = true := by
      rw [Bool.and_eq_true, beq_iff_eq] at h
      rw [h.1]
      rfl
    rw [firstOffset?_run (· != '\n') hc, Option.bind_some]
    exact ofSpan?_front .comment p (run_append_rest _ c t)
  split
  case isTrue h =>
    have hc : c = '"' := beq_iff_eq.1 h
    have hfront : ('"' :: t.take (literalLength 0 t)) ++ t.drop (literalLength 0 t) = '"' :: t := by
      rw [List.cons_append, List.take_append_drop]
    rw [hc, literalEnd?_append, Option.bind_some]
    exact ofSpan?_front .string p hfront
  split
  case isTrue h =>
    have hfront := run_append_rest isWordChar c t
    rw [firstOffset?_run isWordChar (isWordChar_of_isWordStart h), Option.bind_some,
      slice?_front p hfront, Option.bind_some]
    exact ofSpan?_front _ p hfront
  split
  case isTrue h =>
    rw [firstOffset?_run Char.isDigit h, Option.bind_some]
    exact ofSpan?_front .value p (run_append_rest _ c t)
  split
  case isTrue => rw [hone, ofSpan?_front .blank p (List.singleton_append)]
  case isFalse => rw [hone, ofSpan?_front .operator p (List.singleton_append)]

theorem tokensFrom?_of_token {source r : Text} {offset : Nat} {c : Char} {t : Token}
    (hbehind : behind? source offset = some (c :: r)) (htoken : token? source offset c = some t)
    (hon : offset < t.stop) (hinside : t.stop ≤ source.byteLength) :
    tokensFrom? source offset = (tokensFrom? source t.stop).map (t :: ·) := by
  rw [tokensFrom?, hbehind]
  simp only [Option.bind_eq_bind, Option.bind_some, htoken]
  rw [if_pos ⟨hon, hinside⟩, Option.map_eq_bind]
  rfl

theorem tokensFrom?_append (p q : Text) :
    tokensFrom? (p ++ q) p.byteLength = some (lexAt p.byteLength q) := by
  induction q using Lexeme.induction generalizing p with
  | nil =>
    rw [tokensFrom?, behind?_append, lexAt_nil]
    rfl
  | cons c t ih =>
    let w := (Lexeme.front c t).text
    let r := (Lexeme.front c t).rest
    have hsplit : p ++ c :: t = (p ++ w) ++ r := by
      rw [List.append_assoc, Lexeme.text_append_rest]
    have hrest : tokensFrom? (p ++ c :: t) (p.byteLength + w.byteLength) =
        some (lexAt (p.byteLength + w.byteLength) r) := by
      rw [hsplit, ← Text.byteLength_append]
      exact ih (p ++ w)
    have hon : p.byteLength < p.byteLength + w.byteLength := by
      have hpos : w.byteLength ≠ 0 := mt Text.byteLength_eq_zero.1 (Lexeme.text_ne_nil c t)
      omega
    have hinside : p.byteLength + w.byteLength ≤ (p ++ c :: t).byteLength := by
      rw [hsplit, Text.byteLength_append, Text.byteLength_append]
      omega
    have hstep := tokensFrom?_of_token (behind?_append p (c :: t)) (token?_append p c t) hon hinside
    rw [hstep, lexAt_cons]
    exact congrArg (Option.map _) hrest

/-- No slice misses a boundary and the loop ends: the cutting by offsets gives the tokens of `lex`. -/
theorem tokens?_eq_lex (source : Text) : tokens? source = some (lex source) :=
  tokensFrom?_append [] source

end Scan

end ScriptEditor
