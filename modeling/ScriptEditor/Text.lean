/-! Texts are lists of characters, measured in UTF-8 bytes. -/

namespace ScriptEditor

abbrev Text := List Char

namespace Text

def byteLength (t : Text) : Nat := t.foldr (fun c n => c.utf8Size + n) 0

@[simp] theorem byteLength_nil : byteLength [] = 0 := rfl

@[simp] theorem byteLength_cons (c : Char) (t : Text) :
    byteLength (c :: t) = c.utf8Size + byteLength t := rfl

@[simp] theorem byteLength_append (s t : Text) :
    byteLength (s ++ t) = byteLength s + byteLength t := by
  induction s with
  | nil => simp
  | cons c s ih => simp [ih, Nat.add_assoc]

theorem byteLength_eq_zero {t : Text} : byteLength t = 0 ↔ t = [] := by
  cases t with
  | nil => simp
  | cons c t => simpa using fun h => absurd h (Nat.ne_of_gt c.utf8Size_pos)

theorem byteLength_replicate (n : Nat) (c : Char) :
    byteLength (List.replicate n c) = n * c.utf8Size := by
  induction n with
  | zero => simp
  | succ n ih => rw [List.replicate_succ, byteLength_cons, ih, Nat.succ_mul, Nat.add_comm]

/-- Of two cuts of one text, the later one has in front all that the earlier one has. -/
theorem exists_between_cuts {p q x y : Text} (h : p ++ q = x ++ y)
    (hle : byteLength p ≤ byteLength x) : ∃ a, x = p ++ a ∧ q = a ++ y := by
  rcases List.append_eq_append_iff.1 h with ⟨a, hx, hq⟩ | ⟨a, rfl, rfl⟩
  · exact ⟨a, hx, hq⟩
  · have ha : a = [] := by
      rw [byteLength_append] at hle
      exact byteLength_eq_zero.1 (by omega)
    subst ha
    exact ⟨[], by simp, rfl⟩

theorem eq_of_cuts {p q x y : Text} (h : p ++ q = x ++ y) (hlength : byteLength p = byteLength x) :
    p = x := by
  obtain ⟨a, rfl, -⟩ := exists_between_cuts h (Nat.le_of_eq hlength)
  have ha : a = [] := by
    rw [byteLength_append] at hlength
    exact byteLength_eq_zero.1 (by omega)
  rw [ha, List.append_nil]

/-- The order of texts by the codes of their characters, a text coming before its continuations. -/
def le : Text → Text → Bool
  | [], _ => true
  | _ :: _, [] => false
  | a :: s, b :: t => a.toNat < b.toNat || (a == b && le s t)

/-- Puts characters of the text after `taken`, which is held last character first, while they fit
into `n` bytes. -/
def takeBytesOnto (taken : Text) (n : Nat) : Text → Text
  | [] => taken.reverse
  | c :: t =>
    if c.utf8Size ≤ n then takeBytesOnto (c :: taken) (n - c.utf8Size) t else taken.reverse

/-- The longest run of characters at the front of the text that fits into `n` bytes. -/
def takeBytes (n : Nat) (t : Text) : Text := takeBytesOnto [] n t

/-- What is left of the text behind its first `n` bytes. -/
def dropBytes (n : Nat) (t : Text) : Text := t.drop (takeBytes n t).length

theorem takeBytesOnto_eq (taken : Text) (n : Nat) (t : Text) :
    takeBytesOnto taken n t = taken.reverse ++ takeBytes n t := by
  induction t generalizing taken n with
  | nil => simp [takeBytes, takeBytesOnto]
  | cons c t ih =>
    simp only [takeBytes, takeBytesOnto]
    split
    · rw [ih, ih [c]]; simp
    · simp

@[simp] theorem takeBytes_nil (n : Nat) : takeBytes n [] = [] := rfl

theorem takeBytes_cons (n : Nat) (c : Char) (t : Text) :
    takeBytes n (c :: t) = if c.utf8Size ≤ n then c :: takeBytes (n - c.utf8Size) t else [] := by
  simp only [takeBytes, takeBytesOnto]
  split
  · rw [takeBytesOnto_eq]; rfl
  · rfl

theorem takeBytes_append_dropBytes (n : Nat) (t : Text) : takeBytes n t ++ dropBytes n t = t := by
  induction t generalizing n with
  | nil => simp [dropBytes]
  | cons c t ih =>
    rw [dropBytes, takeBytes_cons]
    split
    · simpa [dropBytes] using ih (n - c.utf8Size)
    · simp

theorem byteLength_takeBytes_le (n : Nat) (t : Text) : byteLength (takeBytes n t) ≤ n := by
  induction t generalizing n with
  | nil => simp
  | cons c t ih =>
    rw [takeBytes_cons]
    split
    · have := ih (n - c.utf8Size)
      simp only [byteLength_cons]
      omega
    · simp

/-- Whole characters in front of the cut are taken whole. -/
theorem takeBytes_append (p q : Text) (n : Nat) :
    takeBytes (byteLength p + n) (p ++ q) = p ++ takeBytes n q := by
  induction p with
  | nil => simp
  | cons c p ih =>
    rw [List.cons_append, takeBytes_cons, if_pos (by simp only [byteLength_cons]; omega)]
    have h : byteLength (c :: p) + n - c.utf8Size = byteLength p + n := by
      simp only [byteLength_cons]; omega
    rw [h, ih]; rfl

/-- No character of the text is cut in two at the offset, and the offset is not past the end. -/
def isBoundary (t : Text) (offset : Nat) : Bool := byteLength (takeBytes offset t) == offset

theorem takeBytes_byteLength (p q : Text) : takeBytes (byteLength p) (p ++ q) = p := by
  have h : takeBytes 0 q = [] :=
    byteLength_eq_zero.1 (Nat.le_zero.1 (byteLength_takeBytes_le 0 q))
  simpa [h] using takeBytes_append p q 0

theorem dropBytes_byteLength (p q : Text) : dropBytes (byteLength p) (p ++ q) = q := by
  simp [dropBytes, takeBytes_byteLength]

theorem isBoundary_iff {t : Text} {offset : Nat} :
    isBoundary t offset ↔ ∃ p q, t = p ++ q ∧ byteLength p = offset := by
  constructor
  · intro h
    exact ⟨_, _, (takeBytes_append_dropBytes offset t).symm, by simpa [isBoundary] using h⟩
  · rintro ⟨p, q, rfl, rfl⟩
    simp [isBoundary, takeBytes_byteLength]

/-- The greatest boundary of the text that is at most the offset. -/
def floorBoundary (t : Text) (offset : Nat) : Nat := byteLength (takeBytes offset t)

/-- The part of the text between two boundaries that are in order. -/
def slice? (t : Text) (start stop : Nat) : Option Text :=
  if start ≤ stop && isBoundary t start && isBoundary t stop then
    some (takeBytes (stop - start) (dropBytes start t))
  else none

/-- Puts `inserted` in the place of the part between two boundaries that are in order. -/
def splice? (t : Text) (start stop : Nat) (inserted : Text) : Option Text :=
  (slice? t start stop).map fun _ => takeBytes start t ++ inserted ++ dropBytes stop t

theorem slice?_eq_some_iff {t : Text} {start stop : Nat} {s : Text} :
    slice? t start stop = some s ↔
      ∃ p q, t = p ++ s ++ q ∧ byteLength p = start ∧ start + byteLength s = stop := by
  unfold slice?
  constructor
  · split
    · rename_i h
      simp only [Bool.and_eq_true, decide_eq_true_eq] at h
      obtain ⟨⟨hle, hstart⟩, hstop⟩ := h
      obtain ⟨p, q, rfl, rfl⟩ := isBoundary_iff.1 hstart
      obtain ⟨p', q', he, rfl⟩ := isBoundary_iff.1 hstop
      have hp : takeBytes (byteLength p') (p ++ q) = p' := by rw [he, takeBytes_byteLength]
      obtain ⟨k, hk⟩ := Nat.exists_eq_add_of_le hle
      rw [hk, takeBytes_append] at hp
      intro hs
      rw [dropBytes_byteLength, hk, Nat.add_sub_cancel_left] at hs
      have hs := Option.some.inj hs
      rw [hs] at hp
      exact ⟨p, q', by rw [he, ← hp], rfl, by rw [← hp, byteLength_append]⟩
    · simp
  · rintro ⟨p, q, rfl, rfl, rfl⟩
    have h₁ : isBoundary (p ++ s ++ q) (byteLength p) :=
      isBoundary_iff.2 ⟨p, s ++ q, by simp, rfl⟩
    have h₂ : isBoundary (p ++ s ++ q) (byteLength p + byteLength s) :=
      isBoundary_iff.2 ⟨p ++ s, q, rfl, by simp⟩
    rw [h₁, h₂, List.append_assoc, dropBytes_byteLength, Nat.add_sub_cancel_left,
      takeBytes_byteLength]
    simp

end Text

end ScriptEditor
