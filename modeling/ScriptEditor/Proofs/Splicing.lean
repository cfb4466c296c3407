import Mathlib.Data.List.Infix
import ScriptEditor.Compare
import ScriptEditor.Proofs.Scanning

namespace ScriptEditor

namespace Text

theorem byteLength_le_of_prefix {p t : Text} (h : p <+: t) : p.byteLength ≤ t.byteLength := by
  obtain ⟨q, rfl⟩ := h
  rw [byteLength_append]
  omega

theorem byteLength_le_of_suffix {q t : Text} (h : q <:+ t) : q.byteLength ≤ t.byteLength := by
  obtain ⟨p, rfl⟩ := h
  rw [byteLength_append]
  omega

theorem byteLength_reverse (t : Text) : byteLength t.reverse = byteLength t := by
  induction t with
  | nil => rfl
  | cons c t ih =>
    rw [List.reverse_cons, byteLength_append, ih, byteLength_cons, byteLength_cons, byteLength_nil]
    omega

/-- The longest text with which both texts begin. -/
def shared : Text → Text → Text
  | a :: s, b :: t => if a = b then a :: shared s t else []
  | _s, _t => []

theorem shared_prefix_left (a b : Text) : shared a b <+: a := by
  fun_induction shared a b with
  | case1 s c t ih => exact List.cons_prefix_cons.2 ⟨rfl, ih⟩
  | case2 => exact List.nil_prefix
  | case3 => exact List.nil_prefix

theorem shared_prefix_right (a b : Text) : shared a b <+: b := by
  fun_induction shared a b with
  | case1 s c t ih => exact List.cons_prefix_cons.2 ⟨rfl, ih⟩
  | case2 => exact List.nil_prefix
  | case3 => exact List.nil_prefix

theorem prefix_shared {p a b : Text} (ha : p <+: a) (hb : p <+: b) : p <+: shared a b := by
  induction p generalizing a b with
  | nil => exact List.nil_prefix
  | cons c p ih =>
    obtain ⟨q, rfl⟩ := ha
    obtain ⟨r, rfl⟩ := hb
    rw [List.cons_append, List.cons_append, shared, if_pos rfl, List.cons_prefix_cons]
    exact ⟨rfl, ih (List.prefix_append p q) (List.prefix_append p r)⟩

theorem shared_eq {p a b : Text} (ha : p <+: a) (hb : p <+: b)
    (hlongest : ∀ r, r <+: a → r <+: b → r <+: p) : shared a b = p := by
  have hle := hlongest _ (shared_prefix_left a b) (shared_prefix_right a b)
  exact hle.eq_of_length_le (prefix_shared ha hb).length_le

end Text

/-- The two texts are taken apart into what differs, and what they share in front of it and behind
it. In front they share as much as they can, and behind that as much as is left. -/
structure IsTightSplit (old new p x y q : Text) : Prop where
  old_eq : old = p ++ x ++ q
  new_eq : new = p ++ y ++ q
  front_longest : ∀ r, r <+: old → r <+: new → r <+: p
  back_longest : ∀ r, r <:+ x ++ q → r <:+ y ++ q → r <:+ q

theorem exists_isTightSplit (old new : Text) : ∃ p x y q, IsTightSplit old new p x y q := by
  obtain ⟨s, hs⟩ := Text.shared_prefix_left old new
  obtain ⟨t, ht⟩ := Text.shared_prefix_right old new
  let q := (Text.shared s.reverse t.reverse).reverse
  have hsq : q <:+ s := List.reverse_prefix.1 (by
    rw [List.reverse_reverse]
    exact Text.shared_prefix_left _ _)
  have htq : q <:+ t := List.reverse_prefix.1 (by
    rw [List.reverse_reverse]
    exact Text.shared_prefix_right _ _)
  obtain ⟨x, hx⟩ := hsq
  obtain ⟨y, hy⟩ := htq
  -- The end is shared by what is left behind the front, and so the two never overlap.
  refine ⟨Text.shared old new, x, y, q, ?_, ?_, ?_, ?_⟩
  · rw [List.append_assoc, hx, hs]
  · rw [List.append_assoc, hy, ht]
  · intro r hold hnew
    exact Text.prefix_shared hold hnew
  · intro r hrs hrt
    rw [hx] at hrs
    rw [hy] at hrt
    apply List.reverse_prefix.1
    rw [List.reverse_reverse]
    exact Text.prefix_shared (List.reverse_prefix.2 hrs) (List.reverse_prefix.2 hrt)

namespace IsTightSplit

variable {old new p x y q : Text}

theorem shared_front (h : IsTightSplit old new p x y q) : Text.shared old new = p := by
  apply Text.shared_eq
  · exact ⟨x ++ q, by rw [h.old_eq, List.append_assoc]⟩
  · exact ⟨y ++ q, by rw [h.new_eq, List.append_assoc]⟩
  · exact h.front_longest

theorem shared_back (h : IsTightSplit old new p x y q) :
    Text.shared (x ++ q).reverse (y ++ q).reverse = q.reverse := by
  apply Text.shared_eq
  · exact List.reverse_prefix.2 (List.suffix_append x q)
  · exact List.reverse_prefix.2 (List.suffix_append y q)
  · intro r hx hy
    rw [← List.reverse_reverse r] at hx hy ⊢
    rw [List.reverse_prefix] at hx hy ⊢
    exact h.back_longest _ hx hy

/-- No other way to take the texts apart leaves less of either: where it shares more at the ends than
the tight split does, one of the texts is all used up. -/
theorem minimum (h : IsTightSplit old new p x y q) {p' x' y' q' : Text}
    (hold : old = p' ++ x' ++ q') (hnew : new = p' ++ y' ++ q') :
    x.byteLength ≤ x'.byteLength ∧ y.byteLength ≤ y'.byteLength := by
  have hfront : p' <+: p := by
    apply h.front_longest
    · exact ⟨x' ++ q', by rw [hold, List.append_assoc]⟩
    · exact ⟨y' ++ q', by rw [hnew, List.append_assoc]⟩
  have hlengths : p'.byteLength ≤ p.byteLength := Text.byteLength_le_of_prefix hfront
  have hxs : p.byteLength + x.byteLength + q.byteLength =
      p'.byteLength + x'.byteLength + q'.byteLength := by
    rw [← Text.byteLength_append, ← Text.byteLength_append, ← h.old_eq, hold,
      Text.byteLength_append, Text.byteLength_append]
  have hys : p.byteLength + y.byteLength + q.byteLength =
      p'.byteLength + y'.byteLength + q'.byteLength := by
    rw [← Text.byteLength_append, ← Text.byteLength_append, ← h.new_eq, hnew,
      Text.byteLength_append, Text.byteLength_append]
  have hxq : x ++ q <:+ old := ⟨p, by rw [h.old_eq, List.append_assoc]⟩
  have hyq : y ++ q <:+ new := ⟨p, by rw [h.new_eq, List.append_assoc]⟩
  have hqold : q' <:+ old := ⟨p' ++ x', hold.symm⟩
  have hqnew : q' <:+ new := ⟨p' ++ y', hnew.symm⟩
  -- If `x ++ q` and `y ++ q` are ends of each other, one of them is shared, and so is `q` alone.
  have hone (hcompare : x ++ q <:+ y ++ q ∨ y ++ q <:+ x ++ q) :
      x.byteLength = 0 ∨ y.byteLength = 0 := by
    rcases hcompare with hle | hle
    · have := Text.byteLength_le_of_suffix (h.back_longest _ List.suffix_rfl hle)
      rw [Text.byteLength_append] at this
      omega
    · have := Text.byteLength_le_of_suffix (h.back_longest _ hle List.suffix_rfl)
      rw [Text.byteLength_append] at this
      omega
  rcases List.suffix_or_suffix_of_suffix hqold hxq with hx | hx
  · rcases List.suffix_or_suffix_of_suffix hqnew hyq with hy | hy
    · have := Text.byteLength_le_of_suffix (h.back_longest _ hx hy)
      omega
    · have := hone (.inr (hy.trans hx))
      omega
  · have := hone (List.suffix_or_suffix_of_suffix (hx.trans hqnew) hyq)
    omega

end IsTightSplit

namespace Change

/-- The bytes that the text grows by. -/
def growth (c : Change) : Int := (c.inserted : Int) - (c.stop - c.start : Nat)

/-- Both texts are cut between characters, what is between the cuts of the new text takes the place of
what is between those of the old one, and the lines are counted. -/
structure Describes (c : Change) (old new : Text) : Prop where
  start_le_stop : c.start ≤ c.stop
  stop_le : c.stop ≤ old.byteLength
  inserted_le : c.start + c.inserted ≤ new.byteLength
  cuts_old : old.isBoundary c.start ∧ old.isBoundary c.stop
  cuts_new : new.isBoundary c.start ∧ new.isBoundary (c.start + c.inserted)
  splices : ∃ front inserted behind,
    old.slice? 0 c.start = some front ∧
    new.slice? c.start (c.start + c.inserted) = some inserted ∧
    old.slice? c.stop old.byteLength = some behind ∧
    front ++ inserted ++ behind = new
  lines_eq : c.lines = Text.addedLines old new

variable {c : Change} {old new : Text}

theorem describes_of_parts (p x y q : Text) (hstart : c.start = p.byteLength)
    (hstop : c.stop = p.byteLength + x.byteLength) (hinserted : c.inserted = y.byteLength)
    (hlines : c.lines = Text.addedLines (p ++ x ++ q) (p ++ y ++ q)) :
    c.Describes (p ++ x ++ q) (p ++ y ++ q) := by
  have hcut (a b : Text) : (p ++ a ++ b).isBoundary p.byteLength :=
    Text.isBoundary_iff.2 ⟨p, a ++ b, List.append_assoc p a b, rfl⟩
  have hcut' (a b : Text) : (p ++ a ++ b).isBoundary (p.byteLength + a.byteLength) :=
    Text.isBoundary_iff.2 ⟨p ++ a, b, rfl, Text.byteLength_append p a⟩
  refine ⟨?_, ?_, ?_, ?_, ?_, ⟨p, y, q, ?_, ?_, ?_, rfl⟩, hlines⟩
  · omega
  · simp only [Text.byteLength_append]
    omega
  · simp only [Text.byteLength_append]
    omega
  · rw [hstart, hstop]
    exact ⟨hcut x q, hcut' x q⟩
  · rw [hstart, hinserted]
    exact ⟨hcut y q, hcut' y q⟩
  · rw [hstart, Text.slice?_eq_some_iff]
    exact ⟨[], x ++ q, List.append_assoc p x q, rfl, Nat.zero_add _⟩
  · rw [hstart, hinserted]
    exact Scan.slice?_middle p y q
  · rw [hstop, ← Text.byteLength_append]
    exact Scan.behind?_append (p ++ x) q

theorem Describes.growth_eq (h : c.Describes old new) :
    c.growth = (new.byteLength : Int) - old.byteLength := by
  obtain ⟨p, y, q, hp, hy, hq, hnew⟩ := h.splices
  obtain ⟨-, -, -, -, hstart⟩ := Text.slice?_eq_some_iff.1 hp
  obtain ⟨-, -, -, -, hinserted⟩ := Text.slice?_eq_some_iff.1 hy
  obtain ⟨-, -, -, -, hend⟩ := Text.slice?_eq_some_iff.1 hq
  have hle := h.start_le_stop
  have hlength : new.byteLength = p.byteLength + y.byteLength + q.byteLength := by
    rw [← hnew, Text.byteLength_append, Text.byteLength_append]
  unfold growth
  omega

theorem dropShared_eq (n : Nat) (a b : Text) :
    dropShared n a b = (n + (Text.shared a b).byteLength,
      a.drop (Text.shared a b).length, b.drop (Text.shared a b).length) := by
  fun_induction dropShared n a b with
  | case1 n c s t ih =>
    rw [ih, Text.shared, if_pos rfl, Text.byteLength_cons, Nat.add_assoc]
    rfl
  | case2 n c s d t hne =>
    rw [Text.shared, if_neg hne]
    rfl
  | case3 n s t hnot =>
    rw [Text.shared.eq_2 _ _ hnot]
    rfl

/-- The change that a tight split stands for. -/
def ofSplit (old new p x y : Text) : Change where
  start := p.byteLength
  stop := p.byteLength + x.byteLength
  inserted := y.byteLength
  lines := Text.addedLines old new
  cause := .input

variable {p x y q : Text}

theorem ofInput_eq_ofSplit (h : IsTightSplit old new p x y q) :
    ofInput old new = ofSplit old new p x y := by
  have hdrop (a : Text) : (p ++ a ++ q).drop p.length = a ++ q := by
    rw [List.append_assoc, List.drop_left]
  have hdrop' (a : Text) : Text.byteLength ((a ++ q).reverse.drop q.reverse.length) = a.byteLength := by
    rw [List.reverse_append, List.drop_left, Text.byteLength_reverse]
  have hold := hdrop x
  have hnew := hdrop y
  rw [← h.old_eq] at hold
  rw [← h.new_eq] at hnew
  simp only [ofInput, dropShared_eq, h.shared_front, hold, hnew, h.shared_back, hdrop', ofSplit,
    Nat.zero_add]

theorem describes_ofSplit (h : IsTightSplit old new p x y q) :
    (ofSplit old new p x y).Describes old new := by
  obtain ⟨rfl, rfl, -, -⟩ := h
  exact describes_of_parts p x y q rfl rfl rfl rfl

theorem isEmpty_ofSplit (h : IsTightSplit old new p x y q) :
    (ofSplit old new p x y).isEmpty ↔ old = new := by
  have hempty : (ofSplit old new p x y).isEmpty ↔ x.byteLength = 0 ∧ y.byteLength = 0 := by
    rw [isEmpty, Bool.and_eq_true, decide_eq_true_eq, beq_iff_eq]
    change p.byteLength + x.byteLength ≤ p.byteLength ∧ y.byteLength = 0 ↔ _
    omega
  rw [hempty]
  constructor
  · intro hnone
    rw [h.old_eq, h.new_eq, Text.byteLength_eq_zero.1 hnone.1, Text.byteLength_eq_zero.1 hnone.2]
  · intro heq
    have hwhole : old = old ++ [] ++ [] := by simp
    have hleast := h.minimum hwhole (heq.symm.trans hwhole)
    rw [Text.byteLength_nil] at hleast
    omega

end Change

namespace Compare

/-- Where the search for the first difference ends: behind what is shared at the front. -/
theorem find_zip_charOffsets (k : Nat) (a b : Text) :
    ((((Scan.charOffsets k a).zip b).find? fun x => x.1.2 != x.2).map fun x => x.1.1).getD
        (k + min a.byteLength b.byteLength) =
      k + (Text.shared a b).byteLength := by
  fun_induction Text.shared a b generalizing k with
  | case1 s c t ih =>
    have hmin : min (Text.byteLength (c :: s)) (Text.byteLength (c :: t)) =
        c.utf8Size + min (Text.byteLength s) (Text.byteLength t) := Nat.add_min_add_left _ _ _
    rw [Scan.charOffsets, List.zip_cons_cons, List.find?_cons_of_neg (by simp), hmin,
      Text.byteLength_cons, ← Nat.add_assoc, ← Nat.add_assoc]
    exact ih (k + c.utf8Size)
  | case2 c s d t hne =>
    rw [Scan.charOffsets, List.zip_cons_cons, List.find?_cons_of_pos (by simpa using hne)]
    rfl
  | case3 a b hnot =>
    cases a with
    | nil => simp [Scan.charOffsets]
    | cons c s =>
      cases b with
      | nil => simp
      | cons d t => exact (hnot c s d t rfl rfl).elim

theorem frontLength_eq (a b : Text) : frontLength a b = (Text.shared a b).byteLength := by
  have h := find_zip_charOffsets 0 a b
  rw [Nat.zero_add, Nat.zero_add] at h
  rw [frontLength, ← h]
  cases ((Scan.charOffsets 0 a).zip b).find? fun x => x.1.2 != x.2 <;> rfl

theorem byteLength_takeWhile_zip (a b : Text) :
    Text.byteLength (((a.zip b).takeWhile fun x => x.1 == x.2).map Prod.fst) =
      (Text.shared a b).byteLength := by
  fun_induction Text.shared a b with
  | case1 s c t ih =>
    rw [List.zip_cons_cons, List.takeWhile_cons_of_pos (by simp), List.map_cons,
      Text.byteLength_cons, ih, Text.byteLength_cons]
  | case2 c s d t hne =>
    rw [List.zip_cons_cons, List.takeWhile_cons_of_neg (by simpa using hne)]
    rfl
  | case3 a b hnot =>
    cases a with
    | nil => rfl
    | cons c s =>
      cases b with
      | nil => rfl
      | cons d t => exact (hnot c s d t rfl rfl).elim

theorem backLength_eq (a b : Text) :
    backLength a b = (Text.shared a.reverse b.reverse).byteLength :=
  byteLength_takeWhile_zip a.reverse b.reverse

variable {old new p x y q : Text}

/-- Every slice is made between boundaries, and no difference is negative. -/
theorem change?_eq_ofSplit (h : IsTightSplit old new p x y q) :
    change? old new = some (Change.ofSplit old new p x y) := by
  have hbehind (a : Text) : Scan.behind? (p ++ a ++ q) p.byteLength = some (a ++ q) := by
    rw [List.append_assoc]
    exact Scan.behind?_append p (a ++ q)
  have hminus (a b : Text) : Nat.psub (Text.byteLength (a ++ b)) b.byteLength = some a.byteLength := by
    rw [Nat.psub_eq_some, Text.byteLength_append]
  have hminus' (a b : Text) : Nat.psub (Text.byteLength (a ++ b)) a.byteLength = some b.byteLength := by
    rw [Nat.psub_eq_some, Text.byteLength_append, Nat.add_comm]
  have hold := hbehind x
  have hnew := hbehind y
  have hstop := hminus (p ++ x) q
  have hlength := hminus (p ++ y) q
  rw [← h.old_eq] at hold hstop
  rw [← h.new_eq] at hnew hlength
  simp only [change?, frontLength_eq, h.shared_front, hold, hnew, Option.bind_eq_bind,
    Option.bind_some, backLength_eq, h.shared_back, Text.byteLength_reverse, hstop, hlength, hminus']
  rw [Text.byteLength_append]
  rfl

/-- Comparing two texts never fails, and gives a splice that makes the one into the other. No splice
that does so takes fewer bytes away, or puts fewer in. -/
theorem change?_minimum_splice (old new : Text) :
    change? old new = some (.ofInput old new) ∧
    (Change.ofInput old new).Describes old new ∧
    (∀ p x y q : Text, old = p ++ x ++ q → new = p ++ y ++ q →
      (Change.ofInput old new).stop - (Change.ofInput old new).start ≤ x.byteLength ∧
      (Change.ofInput old new).inserted ≤ y.byteLength) ∧
    ((Change.ofInput old new).isEmpty ↔ old = new) := by
  obtain ⟨p, x, y, q, h⟩ := exists_isTightSplit old new
  rw [Change.ofInput_eq_ofSplit h]
  refine ⟨change?_eq_ofSplit h, Change.describes_ofSplit h, ?_, Change.isEmpty_ofSplit h⟩
  intro p' x' y' q' hold hnew
  have hremoved : (Change.ofSplit old new p x y).stop - (Change.ofSplit old new p x y).start =
      x.byteLength := Nat.add_sub_cancel_left _ _
  rw [hremoved]
  exact h.minimum hold hnew

end Compare

end ScriptEditor
