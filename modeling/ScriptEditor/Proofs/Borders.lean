import Mathlib.Data.List.Chain
import ScriptEditor.Proofs.Tokenization

namespace ScriptEditor

theorem not_isWordChar_of_isBlank {c : Char} (h : Text.isBlank c) : ¬ isWordChar c := by
  rw [isWordChar_iff, IsLetter, IsDigit, ← Char.toNat_inj]
  simp only [Text.isBlank, Bool.or_eq_true, Bool.and_eq_true, decide_eq_true_eq, beq_iff_eq] at h
  simp only [Char.le_def, UInt32.le_iff_toNat_le, Char.toNat_val, Char.reduceToNat]
  omega

theorem not_isWordStart_of_isDigit {c : Char} (h : c.isDigit) : ¬ isWordStart c := by
  rw [isDigit_iff, IsDigit] at h
  rw [isWordStart_iff, IsLetter, ← Char.toNat_inj]
  simp only [Char.le_def, UInt32.le_iff_toNat_le, Char.toNat_val, Char.reduceToNat] at h ⊢
  omega

/-- What is seen where the token `next` follows the token `t`, one case for each rule. -/
inductive Token.Borders (t next : Token) : Prop
  | comment (hkind : t.kind = .comment) (hblank : next.isBlank) (hnext : next.text = ['\n'])
  | string (hkind : t.kind = .string) (w : Text) (htext : t.text = w ++ ['"'])
  | word (hkind : t.kind = .ofWord t.text) (hchars : ∀ c ∈ t.text, isWordChar c)
      (hnext : ∀ c ∈ next.text.head?, ¬ isWordChar c)
  | number (hkind : t.kind = .value) (hchars : ∀ c ∈ t.text, c.isDigit)
  | blank (hkind : t.kind = .blank) (c : Char) (htext : t.text = [c]) (hc : Text.isBlank c)
  | operator (hkind : t.kind = .operator) (c : Char) (htext : t.text = [c]) (hc : ¬ isWordStart c)
      (hblank : ¬ Text.isBlank c)

namespace Token.Borders

variable {t next : Token} {w : Text} {c : Char}

/-- A word does not go on in the next token. -/
theorem not_wordChar (h : t.Borders next) (htext : t.text = w ++ [c]) (hc : isWordStart c) :
    ∀ d ∈ next.text.head?, ¬ isWordChar d := by
  have hmem : c ∈ t.text := by simp [htext]
  cases h with
  | comment _ _ hnext =>
    rw [hnext]
    simp only [List.head?_cons, Option.mem_some_iff, forall_eq']
    decide
  | string _ v hv =>
    have hquote := (List.append_inj' (htext.symm.trans hv) rfl).2
    rw [List.cons.inj hquote |>.1] at hc
    exact absurd hc (by decide)
  | word _ _ hnext => exact hnext
  | number _ hchars => exact absurd hc (not_isWordStart_of_isDigit (hchars c hmem))
  | blank _ b hb hblank =>
    rw [hb, List.mem_singleton] at hmem
    subst hmem
    exact absurd (isWordChar_of_isWordStart hc) (not_isWordChar_of_isBlank hblank)
  | operator _ b hb hstart =>
    rw [hb, List.mem_singleton] at hmem
    subst hmem
    exact absurd hc hstart

theorem exists_of_isBlank (h : t.Borders next) (hblank : t.isBlank) :
    ∃ c, t.text = [c] ∧ Text.isBlank c := by
  have hkind : t.kind = .blank := beq_iff_eq.1 hblank
  cases h with
  | blank _ c htext hc => exact ⟨c, htext, hc⟩
  | comment h | string h | number h | operator h =>
    rw [h] at hkind
    cases hkind
  | word h =>
    rw [h, ofWord_eq] at hkind
    split at hkind
    · cases hkind
    · split at hkind <;> cases hkind

/-- A token ends in a blank if it is one itself, or is a comment, behind which the line ends. -/
theorem isBlank_last (h : t.Borders next) (htext : t.text = w ++ [c]) (hc : Text.isBlank c) :
    t.isBlank ∨ (next.isBlank ∧ next.text = ['\n']) := by
  have hmem : c ∈ t.text := by simp [htext]
  have hnot := not_isWordChar_of_isBlank hc
  cases h with
  | comment _ hblank hnext => exact .inr ⟨hblank, hnext⟩
  | string _ v hv =>
    have hquote := (List.append_inj' (htext.symm.trans hv) rfl).2
    rw [List.cons.inj hquote |>.1] at hc
    exact absurd hc (by decide)
  | word _ hchars _ => exact absurd (hchars c hmem) hnot
  | number _ hchars =>
    have hdigit : isWordChar c := by
      rw [isWordChar_iff, ← isDigit_iff]
      exact .inr (.inl (hchars c hmem))
    exact absurd hdigit hnot
  | blank hkind => exact .inl (beq_iff_eq.2 hkind)
  | operator _ b hb _ hblank =>
    rw [hb, List.mem_singleton] at hmem
    subst hmem
    exact absurd hc hblank

end Token.Borders

namespace Lexeme

theorem head?_text (c : Char) (t : Text) : (front c t).text.head? = some c := by
  simp only [front]
  repeat' split
  all_goals rfl

/-- The token of the lexeme at the front of a text that starts at the offset. -/
def token (c : Char) (t : Text) (offset : Nat) : Token := ⟨(front c t).kind, (front c t).text, offset⟩

/-- What is left behind a run of characters begins with one that does not belong to it. -/
theorem not_of_dropWhile_eq {test : Char → Bool} {t : Text} {d : Char} {r : Text}
    (h : t.dropWhile test = d :: r) : ¬ test d := by
  have hnot := List.head?_dropWhile_not test t
  rw [h] at hnot
  simpa using hnot

theorem exists_closed_of_drop_eq {t : Text} {d : Char} {r : Text}
    (h : t.drop (literalLength 0 t) = d :: r) : ∃ b, t.take (literalLength 0 t) = b ++ ['"'] := by
  rcases literal_closes_or_takes_all 0 t with ⟨b, r', hb, rfl⟩ | hall
  · exact ⟨b, take_literalLength_body hb r'⟩
  · rw [hall, Nat.zero_add, List.drop_length] at h
    cases h

theorem borders {c d : Char} {t r : Text} (h : (front c t).rest = d :: r) (m n : Nat) :
    (token c t m).Borders (token d r n) := by
  have hhead : (token d r n).text.head? = some d := head?_text d r
  -- Of the next token only its first character matters, unless this one is a comment.
  generalize hnext : token d r n = next at hhead ⊢
  rw [token]
  generalize hl : front c t = l at h ⊢
  unfold front at hl
  split at hl
  case isTrue =>
    subst hl
    -- Only a line feed stops a comment, and that is a token of its own.
    have hd : d = '\n' := by simpa using not_of_dropWhile_eq h
    subst hd hnext
    exact .comment rfl rfl rfl
  split at hl
  case isTrue =>
    subst hl
    obtain ⟨b, hb⟩ := exists_closed_of_drop_eq h
    refine .string rfl (c :: b) ?_
    rw [List.cons_append, ← hb]
  split at hl
  case isTrue hstart =>
    subst hl
    refine .word rfl ?_ ?_
    · intro e he
      rcases List.mem_cons.1 he with rfl | he
      · exact isWordChar_of_isWordStart hstart
      · exact List.mem_takeWhile_imp he
    · rw [hhead]
      simpa using not_of_dropWhile_eq h
  split at hl
  case isTrue hdigit =>
    subst hl
    refine .number rfl ?_
    intro e he
    rcases List.mem_cons.1 he with rfl | he
    · exact hdigit
    · exact List.mem_takeWhile_imp he
  split at hl
  case isTrue hblank =>
    subst hl
    exact .blank rfl c rfl hblank
  case isFalse hstart _ hblank =>
    subst hl
    exact .operator rfl c rfl hstart hblank

end Lexeme

theorem isChain_lexAt (offset : Nat) (t : Text) : (lexAt offset t).IsChain Token.Borders := by
  induction t using Lexeme.induction generalizing offset with
  | nil =>
    rw [lexAt_nil]
    exact List.isChain_nil
  | cons c t ih =>
    rw [lexAt_cons]
    cases h : (Lexeme.front c t).rest with
    | nil =>
      rw [lexAt_nil]
      exact List.isChain_singleton _
    | cons d r =>
      have hrest := ih (offset + Text.byteLength (Lexeme.front c t).text)
      rw [h, lexAt_cons] at hrest
      rw [lexAt_cons]
      exact List.isChain_cons_cons.2 ⟨Lexeme.borders h _ _, hrest⟩

/-- Letters that end a text of tokens end its last token: no word goes over the end of a token. -/
theorem suffix_flatMap_iff {w : Text} {before : List Token} {p : Token}
    (hw : ∀ c ∈ w, isWordStart c) (hchain : (before ++ [p]).IsChain Token.Borders)
    (hne : ∀ u ∈ before ++ [p], u.text ≠ []) :
    w <:+ (before ++ [p]).flatMap Token.text ↔ w <:+ p.text := by
  have hsplit : (before ++ [p]).flatMap Token.text = before.flatMap Token.text ++ p.text := by
    rw [List.flatMap_append, List.flatMap_singleton]
  rw [hsplit]
  constructor
  · intro h
    rcases List.suffix_or_suffix_of_suffix h (List.suffix_append _ p.text) with hle | ⟨v, rfl⟩
    · exact hle
    rcases List.eq_nil_or_concat' v with rfl | ⟨v, c, rfl⟩
    · exact List.suffix_refl _
    -- Here the token in front of `p` would end in `c`, and `p` would go on with the word.
    exfalso
    obtain ⟨a, ha⟩ := h
    rw [← List.append_assoc] at ha
    have hfront := List.append_cancel_right ha
    rcases List.eq_nil_or_concat' before with rfl | ⟨before, u, rfl⟩
    · simp at hfront
    obtain ⟨z, d, hz⟩ : ∃ z d, u.text = z ++ [d] := by
      rcases List.eq_nil_or_concat' u.text with hnil | h
      · exact absurd hnil (hne u (by simp))
      · exact h
    have hd : c = d := by
      rw [List.flatMap_append, List.flatMap_singleton, hz, ← List.append_assoc,
        ← List.append_assoc] at hfront
      exact (List.cons.inj (List.append_inj' hfront rfl).2).1
    have hborders : u.Borders p := by
      rw [List.append_assoc] at hchain
      exact (List.isChain_append_cons_cons.1 hchain).2.1
    obtain ⟨e, s, hs⟩ := List.exists_cons_of_ne_nil (hne p (by simp))
    have hc : isWordStart d := hw d (by simp [hd])
    have he : isWordStart e := hw e (by simp [hs])
    exact hborders.not_wordChar hz hc e (by rw [hs]; rfl) (isWordChar_of_isWordStart he)
  · intro h
    exact h.trans (List.suffix_append _ _)

end ScriptEditor
