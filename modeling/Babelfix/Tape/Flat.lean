import Babelfix.Lib.Forest
import Babelfix.Message.Numeral
import Babelfix.Tape.Encode

/-! # Reading a tape

A tape is a forest of entries laid out flat, each entry's span covering what is below
it. What the encoder finds by stepping over spans it would find by recursion over the
forest. -/
namespace Babelfix.Tape

open Lib

/-! ## What is written -/

mutual

/-- Whether something in a forest is written. -/
def writes : Forest Entry → Bool
  | .nil => false
  | .node e c r =>
    (match e.kind with
      | .group => 0 < live c
      | .gap | .inst => false
      | _ => true) || writes r

/-- How many of a group's instances are written. -/
def live : Forest Entry → Nat
  | .nil => 0
  | .node _ c r => (if writes c then 1 else 0) + live r

end

variable {e : Entry} {c : Forest Entry} {fuel : Nat} {m : Message}

section

variable {tape pre post : List Entry} {f : Forest Entry}

variable {r : Forest Entry}

theorem nextSibling_node (htape : tape = pre ++ ((Forest.node e c r).preorder ++ post))
    (hfits : (Forest.node e c r).Fits Entry.span) :
    nextSibling tape pre.length = (pre ++ e :: c.preorder).length := by
  rw [nextSibling, htape, Forest.preorder_node, List.cons_append, entryAt_length, hfits.1]
  simp

/-- The tape below a node, and the tape after it. -/
theorem split_node (htape : tape = pre ++ ((Forest.node e c r).preorder ++ post)) :
    tape = (pre ++ [e]) ++ (c.preorder ++ (r.preorder ++ post)) ∧
      tape = (pre ++ e :: c.preorder) ++ (r.preorder ++ post) := by
  simp [htape]

theorem entryAt_node (htape : tape = pre ++ ((Forest.node e c r).preorder ++ post)) :
    entryAt tape pre.length = e := by
  rw [htape, Forest.preorder_node, List.cons_append, entryAt_length]

/-- Where a tree and what is around it are on a tape. -/
structure Stands (tape pre : List Entry) (e : Entry) (c r : Forest Entry) (post : List Entry) :
    Prop where
  entry : entryAt tape pre.length = e
  next : nextSibling tape pre.length = (pre ++ e :: c.preorder).length
  below : tape = (pre ++ [e]) ++ (c.preorder ++ (r.preorder ++ post))
  after : tape = (pre ++ e :: c.preorder) ++ (r.preorder ++ post)
  start : pre.length + 1 = (pre ++ [e]).length
  mid : (pre ++ e :: c.preorder).length = (pre ++ [e]).length + c.size
  stop : pre.length + (Forest.node e c r).size = (pre ++ e :: c.preorder).length + r.size

theorem stands (htape : tape = pre ++ ((Forest.node e c r).preorder ++ post))
    (hfits : (Forest.node e c r).Fits Entry.span) : Stands tape pre e c r post where
  entry := entryAt_node htape
  next := nextSibling_node htape hfits
  below := (split_node htape).1
  after := (split_node htape).2
  start := by simp
  mid := by
    simp
    omega
  stop := by
    simp
    omega

/-- Counting live instances, and looking for something that is written. Both by
induction on the fuel, since each calls the other. -/
theorem liveUpTo_writesUpTo (hfits : f.Fits Entry.span) (hfuel : f.size ≤ fuel)
    (htape : tape = pre ++ (f.preorder ++ post)) :
    liveUpTo tape fuel pre.length (pre.length + f.size) = live f ∧
      writesUpTo tape fuel pre.length (pre.length + f.size) = writes f := by
  induction fuel generalizing f pre post with
  | zero =>
    cases f with
    | nil => simp [liveUpTo, writesUpTo, live, writes]
    | node e c r => simp at hfuel
  | succ fuel ih =>
    cases f with
    | nil => simp [liveUpTo, writesUpTo, live, writes]
    | node e c r =>
      have hs := stands htape hfits
      have hlt : pre.length < pre.length + (Forest.node e c r).size := by simp
      simp only [Forest.size_node] at hfuel
      obtain ⟨hlive, hwrites⟩ := ih hfits.2.1 (by omega) hs.below
      obtain ⟨hlive', hwrites'⟩ := ih hfits.2.2 (by omega) hs.after
      rw [← hs.mid] at hlive hwrites
      rw [liveUpTo, writesUpTo, if_pos hlt, if_pos hlt]
      dsimp only
      rw [hs.next, hs.entry, hs.start, hs.stop, hlive, hlive', hwrites, hwrites', live, writes]
      cases e.kind <;> simp

theorem liveInstances_node (htape : m.tape = pre ++ ((Forest.node e c r).preorder ++ post))
    (hfits : (Forest.node e c r).Fits Entry.span) : m.liveInstances pre.length = live c := by
  have hs := stands htape hfits
  have hsize : c.size ≤ m.tape.length := by
    rw [hs.below]
    simp
    omega
  rw [Message.liveInstances, hs.next, hs.mid, hs.start]
  exact (liveUpTo_writesUpTo hfits.2.1 hsize hs.below).1

end

/-- Fields at the top level that are written apart, or first. -/
def Entry.IsFraming (e : Entry) : Prop :=
  e.depth = 0 ∧ (e.tag = 8 ∨ e.tag = 9 ∨ e.tag = 10 ∨ e.tag = 35)

instance (e : Entry) : Decidable e.IsFraming := inferInstanceAs (Decidable (_ ∧ _))

/-- The fields and groups of a forest at `i` that are written between BodyLength and
CheckSum, in order. -/
def visits (i : Nat) : Forest Entry → List (Nat × Entry)
  | .nil => []
  | .node e c r =>
    (match e.kind with
      | .gap => []
      | .inst => visits (i + 1) c
      | .group => if live c = 0 then [] else (i, e) :: visits (i + 1) c
      | _ => if e.IsFraming then [] else [(i, e)]) ++ visits (i + c.size + 1) r

theorem visits_append (i : Nat) (f g : Forest Entry) :
    visits i (f ++ g) = visits i f ++ visits (i + f.size) g := by
  induction f generalizing i with
  | nil => simp [visits]
  | node e c r _ ih =>
    simp only [Forest.node_append, visits, ih, Forest.size_node, List.append_assoc]
    congr 3
    omega

theorem Entry.span_field (h : e.isField) : e.span = 1 := by
  unfold isField at h
  unfold span
  split at h <;> simp_all

theorem children_eq_nil (hspan : e.span = c.size + 1) (he : e.isField) : c = .nil := by
  rw [Entry.span_field he] at hspan
  exact Forest.size_eq_zero.mp (by omega)

theorem length_below (pre : List Entry) (e : Entry) (c : Forest Entry) :
    pre.length + 1 = (pre ++ [e]).length ∧
      pre.length + c.size + 1 = (pre ++ e :: c.preorder).length := by
  constructor
  · simp
  · simp
    omega

theorem visitUpTo_eq {pre f} (hfits : f.Fits Entry.span) (hfuel : f.size ≤ fuel)
    (htape : m.tape = pre ++ f.preorder) :
    visitUpTo m.tape m.liveInstances fuel pre.length = visits pre.length f := by
  induction fuel generalizing f pre with
  | zero =>
    cases f with
    | nil => rfl
    | node e c r => simp at hfuel
  | succ fuel ih =>
    cases f with
    | nil =>
      rw [visitUpTo, if_neg (by simp [htape])]
      rfl
    | node e c r =>
      have htape' : m.tape = pre ++ ((Forest.node e c r).preorder ++ []) := by simpa using htape
      have hentry : entryAt m.tape pre.length = e := by
        rw [htape, Forest.preorder_node, entryAt_length]
      have hlive := liveInstances_node htape' hfits
      have hspan := hfits.1
      obtain ⟨-, hc, hr⟩ := hfits
      simp only [Forest.size_node] at hfuel
      have hinto : visitUpTo m.tape m.liveInstances fuel (pre ++ [e]).length =
          visits (pre ++ [e]).length (c ++ r) :=
        ih (by simp [hc, hr]) (by simp; omega) (by simp [htape])
      have hover : visitUpTo m.tape m.liveInstances fuel (pre ++ e :: c.preorder).length =
          visits (pre ++ e :: c.preorder).length r := ih hr (by omega) (by simp [htape])
      rw [← (length_below pre e c).1, visits_append,
        show pre.length + 1 + c.size = pre.length + c.size + 1 by omega] at hinto
      rw [← (length_below pre e c).2] at hover
      rw [visitUpTo, if_pos (by simp [htape])]
      dsimp only
      rw [hentry, hlive, hspan, show pre.length + (c.size + 1) = pre.length + c.size + 1 by omega,
        hinto, hover, visits]
      cases hkind : e.kind with
      | gap => rfl
      | inst => rfl
      | group =>
        dsimp only
        split <;> simp
      | field | dataLen | data =>
        have hnil := children_eq_nil hspan (by simp [Entry.isField, hkind])
        subst hnil
        change (if e.IsFraming then _ else _) = _
        split <;> simp [visits]

/-! ## Finding a field -/

/-- The place of the first entry for `tag` among the roots of a forest at `i`. -/
def findRoot (tag i : Nat) : Forest Entry → Option Nat
  | .nil => none
  | .node e c r =>
    if e.tag = tag ∧ e.isTagged then some i else findRoot tag (i + c.size + 1) r

/-- A search steps over a forest if it finds nothing behind it. -/
theorem scanUpTo_through (pre : List Entry) {tape post tag f stop} (hfits : f.Fits Entry.span)
    (hfuel : f.size ≤ fuel) (htape : tape = pre ++ (f.preorder ++ post))
    (hle : pre.length + f.size ≤ stop)
    (hend : ∀ fuel, scanUpTo tape tag fuel (pre.length + f.size) stop = none) :
    scanUpTo tape tag fuel pre.length stop = findRoot tag pre.length f := by
  induction f generalizing pre fuel with
  | nil => exact hend fuel
  | node e c r _ ih =>
    have hs := stands htape hfits
    rw [hs.stop] at hle hend
    have hlen := (length_below pre e c).2
    cases fuel with
    | zero => simp at hfuel
    | succ fuel =>
      simp only [Forest.size_node] at hfuel
      have hrest : scanUpTo tape tag fuel _ stop = _ := ih _ hfits.2.2 (by omega) hs.after hle hend
      rw [← hs.next, nextSibling, hs.entry] at hrest
      rw [scanUpTo, if_pos (by omega), hs.entry]
      dsimp only
      rw [hrest, findRoot, hfits.1]
      rfl

theorem scanUpTo_eq (pre : List Entry) {tape post tag f} (hfits : f.Fits Entry.span)
    (hfuel : f.size ≤ fuel) (htape : tape = pre ++ (f.preorder ++ post)) :
    scanUpTo tape tag fuel pre.length (pre.length + f.size) = findRoot tag pre.length f := by
  refine scanUpTo_through pre hfits hfuel htape le_rfl fun fuel => ?_
  cases fuel <;> simp [scanUpTo]

/-! ## Pieces -/

namespace Message

/-- What is written for a field or a group. -/
def written (m : Message) (x : Nat × Entry) : Bytes :=
  if x.2.kind = .group then Piece.putGroup x.2.tag (m.liveInstances x.1) soh else m.spanBytes x.2

theorem slice_join {bytes i j k} (hij : i ≤ j) (hjk : j ≤ k) :
    slice bytes i (j - i) ++ slice bytes j (k - j) = slice bytes i (k - i) := by
  have hsplit : (bytes.drop i).take (k - i) =
      (bytes.drop i).take (j - i) ++ ((bytes.drop i).drop (j - i)).take (k - j) := by
    rw [← List.take_add]
    congr 1
    omega
  simp only [slice]
  rw [hsplit, List.drop_drop, show i + (j - i) = j by omega]

theorem piecesFrom_flatMap {run l} (hrun : ∀ r ∈ run, r.start ≤ r.stop) :
    (m.piecesFrom run l).flatMap Piece.put = (m.flush run).flatMap Piece.put ++ l.flatMap m.written := by
  induction l generalizing run with
  | nil => simp [piecesFrom]
  | cons x l ih =>
    obtain ⟨i, e⟩ := x
    rw [List.flatMap_cons, piecesFrom]
    split
    · rename_i hkind
      have hgroup : m.written (i, e) = Piece.put (.group e.tag (m.liveInstances i)) := by
        simp [written, hkind, Piece.put]
      rw [List.flatMap_append, List.flatMap_cons, ih (by simp), hgroup]
      simp [flush]
    · rename_i hkind
      have hfield : m.written (i, e) =
          slice (m.seg e.seg) e.off (e.off + e.valOff + e.len + 1 - e.off) := by
        have hlen : e.valOff + e.len + 1 = e.off + e.valOff + e.len + 1 - e.off := by omega
        rw [written, if_neg hkind, spanBytes]
        rw [hlen]
      split
      · rename_i r
        have hr := hrun r rfl
        split
        · rename_i hadjacent
          obtain ⟨hseg, hstop⟩ := hadjacent
          rw [ih (by rintro _ ⟨⟩; dsimp only; omega), hfield, ← List.append_assoc, ← hseg, ← hstop]
          simp only [flush, List.flatMap_cons, List.flatMap_nil, List.append_nil, Piece.put]
          rw [slice_join hr (by omega)]
        · rw [List.flatMap_append, ih (by rintro _ ⟨⟩; dsimp only; omega), hfield]
          simp [flush, Piece.put]
      · rw [ih (by rintro _ ⟨⟩; dsimp only; omega), hfield]
        simp [flush, Piece.put]

theorem length_put (p : Piece) : p.put.length = p.len := by
  cases p with
  | bytes b => rfl
  | group tag count =>
    simp [Piece.put, Piece.putGroup, Piece.len]
    omega

theorem pieces_flatMap (m : Message) : m.pieces.flatMap Piece.put = m.visit.flatMap m.written := by
  rw [pieces, piecesFrom_flatMap (by simp)]
  simp [flush]

theorem pieces_len (m : Message) :
    (m.pieces.map Piece.len).sum = (m.visit.flatMap m.written).length := by
  rw [← pieces_flatMap, List.length_flatMap]
  simp only [length_put]

end Message

/-! ## The frame -/

/-- CheckSum's value. -/
def sumText (sum : Nat) : Bytes :=
  [48 + UInt8.ofNat (sum / 100), 48 + UInt8.ofNat (sum / 10 % 10), 48 + UInt8.ofNat (sum % 10)]

/-- BeginString and BodyLength of a message whose fields after them are `body`. -/
def frameHead (d : Dictionary) (body : Bytes) : Bytes :=
  writeUint 8 ++ 61 :: (d.beginString ++ [soh]) ++
    (writeUint 9 ++ 61 :: (writeUint body.length ++ [soh]))

/-- A message whose fields between BodyLength and CheckSum are `body`. -/
def frame (d : Dictionary) (body : Bytes) : Bytes :=
  frameHead d body ++ body ++
    (writeUint 10 ++ 61 :: (sumText (checksumOf (frameHead d body ++ body)) ++ [soh]))

/-- The framing fields' tags, as the encoder writes them. -/
theorem ascii_framing : ascii "8=" = writeUint 8 ++ [61] ∧ ascii "9=" = writeUint 9 ++ [61] ∧
    ascii "10=" = writeUint 10 ++ [61] := by decide +kernel

/-- BeginString and BodyLength, as they are written. -/
def opening (d : Dictionary) (value : Bytes) (delim : UInt8) : Bytes :=
  ascii "8=" ++ d.beginString ++ delim :: (ascii "9=" ++ value ++ [delim])

/-- **What is written: the visited fields in a frame.** -/
theorem encodeDelimited_soh (m : Message) (out : Bytes) :
    m.encodeDelimited out soh = out ++ frame m.dict (m.visit.flatMap m.written) := by
  obtain ⟨h8, h9, h10⟩ := ascii_framing
  simp only [Message.encodeDelimited, if_true, Message.pieces_flatMap, Message.pieces_len,
    sohChecksum_soh, h8, h9, h10, frame, frameHead, sumText]
  simp

end Babelfix.Tape
