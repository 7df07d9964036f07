import Babelfix.Message.Numeral
import Babelfix.Tape.Parse

/-! # The parser's notes

What the parser keeps about a message's framing, and where each field ended if
delimiters are to be replaced afterwards. Putting fields on the tape neither reads nor
changes these notes, and nothing reads the places until all fields have been taken. -/
namespace Babelfix.Tape

namespace Parser

/-- What the parser keeps besides the tape. -/
structure Notes where
  ordinal : Nat
  checksum : Option (Nat × Nat)
  bodyLength : Option (Nat × Nat)
  terminators : Option (List Nat)

def notes (p : Parser) : Notes := ⟨p.ordinal, p.checksum, p.bodyLength, p.terminators⟩

def noting (k : Notes) (p : Parser) : Parser :=
  { p with
    ordinal := k.ordinal, checksum := k.checksum, bodyLength := k.bodyLength
    terminators := k.terminators }

/-- The parser with other places remembered. -/
def marking (o : Option (List Nat)) (p : Parser) : Parser := { p with terminators := o }

section

variable (o : Option (List Nat)) (p : Parser)

@[simp] theorem msg_marking : (p.marking o).msg = p.msg := rfl

@[simp] theorem stack_marking : (p.marking o).stack = p.stack := rfl

end

/-! ## Putting fields on the tape -/

/-- The notes, and the rules the parser reads by. -/
structure Aside extends Notes where
  framing : Framing

def aside (p : Parser) : Aside := ⟨p.notes, p.framing⟩

def beside (k : Aside) (p : Parser) : Parser := { p.noting k.toNotes with framing := k.framing }

/-- An operation on the tape, which neither reads nor changes what is kept beside it. -/
def OnTape (op : Parser → Except Fault Parser) : Prop :=
  ∀ k p, op (p.beside k) = (op p).map (beside k)

section

variable {op : Parser → Except Fault Parser} {k : Aside} {p p' : Parser}

theorem aside_of_map {x : Except Fault Parser} (h : x = x.map (beside k)) (hx : x = .ok p') :
    p'.aside = k := by
  rw [hx] at h
  rw [Except.ok.inj h]
  rfl

theorem OnTape.keeps (h : OnTape op) (hp : op p = .ok p') : p'.aside = p.aside :=
  aside_of_map (h p.aside p) hp

theorem OnTape.notes (h : OnTape op) (hp : op p = .ok p') : p'.notes = p.notes :=
  congrArg Aside.toNotes (h.keeps hp)

theorem map_beside (g : Aside → Aside) {x : Except Fault Parser}
    (h : ∀ p', x = .ok p' → p'.aside = p.aside) :
    x.map (beside (g p.aside)) = x.map fun p' => p'.beside (g p'.aside) := by
  cases x with
  | error e => rfl
  | ok p' =>
    rw [← h p' rfl]
    rfl

theorem OnTape.map (h : OnTape op) (g : Aside → Aside) (p : Parser) :
    op (p.beside (g p.aside)) = (op p).map fun p' => p'.beside (g p'.aside) := by
  rw [h]
  exact map_beside g fun _ => h.keeps

theorem closeInstance_beside (k : Aside) (p : Parser) :
    (p.beside k).closeInstance = p.closeInstance.beside k := by
  unfold closeInstance
  simp only [beside, noting]
  split
  · rfl
  · split <;> rfl

theorem closeGroup_onTape : OnTape closeGroup := by
  intro k p
  unfold closeGroup
  rw [closeInstance_beside]
  simp only [beside, noting]
  split
  · rfl
  · split <;> rfl

theorem startInstance_onTape (tag : Nat) : OnTape (startInstance tag) := by
  intro k p
  unfold startInstance
  rw [closeInstance_beside]
  simp only [beside, noting]
  split
  · rfl
  · rename_i frame outer _
    split
    · rfl
    · cases deeper frame.depth <;> rfl

theorem joinGroup_onTape (tag : Nat) (stack : List Frame) : OnTape (joinGroup tag stack) := by
  intro k p
  induction stack generalizing p with
  | nil => rfl
  | cons frame outer ih =>
    refine ite_eq_map (fun _ => startInstance_onTape tag k p) fun _ =>
      ite_eq_map (fun _ => ite_eq_map (fun _ => rfl) fun _ => rfl) fun _ => ?_
    rw [closeGroup_onTape]
    cases p.closeGroup with
    | error e => rfl
    | ok p' => exact ih p'

theorem enterRegion_onTape (tag : Nat) : OnTape (enterRegion tag) := by
  intro k p
  obtain ⟨framing, msg, stack, region, ordinal, checksum, bodyLength, terminators⟩ := p
  cases region with
  | trailer => exact ite_eq_map (fun _ => rfl) fun _ => rfl
  | _ =>
    exact ite_eq_map (fun _ => rfl) fun _ => ite_eq_map (fun _ => rfl) fun _ => rfl

theorem pushLateHeader_beside (entry : Entry) (k : Aside) (p : Parser) :
    (p.beside k).pushLateHeader entry = (p.pushLateHeader entry).beside k := by
  unfold pushLateHeader
  simp only [beside, noting]
  split <;> rfl

theorem place_onTape (entry : Entry) (value : Bytes) (depth : Nat) :
    OnTape (place entry value depth) := by
  intro k p
  have hopens : (p.beside k).opens entry.tag = p.opens entry.tag := rfl
  unfold place
  rw [hopens]
  cases (if entry.kind = .field then p.opens entry.tag else none) with
  | none => rfl
  | some group =>
    cases parseUint value with
    | error e => rfl
    | ok declared => exact ite_eq_map (fun _ => rfl) fun _ => rfl

theorem closeAll_onTape (stack : List Frame) : OnTape (closeAll stack) := by
  intro k p
  induction stack generalizing p with
  | nil => rfl
  | cons frame outer ih =>
    simp only [closeAll]
    rw [closeGroup_onTape]
    cases p.closeGroup with
    | error e => rfl
    | ok p' => exact ih p'

/-- Only whether a header field may come late depends on the rules. -/
theorem settle_beside (hk : k.framing = p.framing) (entry : Entry) (value : Bytes) :
    (p.beside k).settle entry value = (p.settle entry value).map (beside k) := by
  have hlate : (p.beside k).isLateHeader entry.tag = p.isLateHeader entry.tag := by
    simp only [isLateHeader, beside, noting, hk]
  have hstack : (p.beside k).stack = p.stack := rfl
  unfold settle
  rw [hlate, hstack]
  split
  · rename_i frame _ _
    cases deeper frame.depth with
    | error e => rfl
    | ok depth => exact place_onTape entry value depth k p
  · refine ite_eq_map (fun _ => ite_eq_map (fun _ => rfl) fun _ => ?_) fun _ => ?_
    · rw [pushLateHeader_beside]
      rfl
    · rw [enterRegion_onTape]
      cases p.enterRegion entry.tag with
      | error e => rfl
      | ok p' => exact place_onTape entry value 0 k p'

theorem push_beside (hk : k.framing = p.framing) (entry : Entry) (value : Bytes) :
    (p.beside k).push entry value = (p.push entry value).map (beside k) := by
  show joinGroup entry.tag p.stack (p.beside k) >>= _ = _
  unfold push
  rw [joinGroup_onTape]
  cases hjoin : joinGroup entry.tag p.stack p with
  | error e => rfl
  | ok p' =>
    have hkeeps := (joinGroup_onTape entry.tag p.stack).keeps hjoin
    exact settle_beside (hk.trans (congrArg Aside.framing hkeeps).symm) entry value

theorem push_aside {entry value} (h : p.push entry value = .ok p') : p'.aside = p.aside :=
  aside_of_map (push_beside (k := p.aside) rfl entry value) h

end

/-! ## What stays on the tape -/

/-- What an entry is for, whatever it covers. -/
def uses (tape : List Entry) : List (Nat × Kind) := tape.map fun e => (e.tag, e.kind)

theorem uses_set {tape i e} (htag : e.tag = (entryAt tape i).tag)
    (hkind : e.kind = (entryAt tape i).kind) : uses tape <+: uses (tape.set i e) := by
  have hsame : uses (tape.set i e) = uses tape := by
    rw [uses, List.map_set, htag, hkind]
    refine List.ext_getElem (by simp [uses]) fun j hj hj' => ?_
    rw [List.getElem_set]
    split
    · rename_i hij
      subst hij
      have hlt : i < tape.length := by simpa [uses] using hj'
      simp [uses, entryAt, hlt]
    · rfl
  exact hsame ▸ List.prefix_refl _

/-- The parser has gone on with the same dictionary, and what was on the tape is still
there. -/
structure Grown (p p' : Parser) : Prop where
  dict : p'.msg.dict = p.msg.dict
  uses : uses p.msg.tape <+: uses p'.msg.tape

section

variable {p p' : Parser} {tag : Nat} {stack : List Frame}

theorem Grown.refl (p : Parser) : Grown p p := ⟨rfl, List.prefix_refl _⟩

theorem Grown.trans {p''} (h : Grown p p') (h' : Grown p' p'') : Grown p p'' :=
  ⟨h'.dict.trans h.dict, h.uses.trans h'.uses⟩

theorem closeInstance_grown (p : Parser) : Grown p p.closeInstance := by
  unfold closeInstance
  split
  · exact .refl _
  · split
    · exact .refl _
    · exact ⟨rfl, uses_set rfl rfl⟩

theorem closeGroup_grown (h : p.closeGroup = .ok p') : Grown p p' := by
  refine (closeInstance_grown p).trans ?_
  unfold closeGroup at h
  dsimp only at h
  split at h
  · cases h
    exact .refl _
  · split at h
    · cases h
    · cases h
      exact ⟨rfl, uses_set rfl rfl⟩

theorem startInstance_grown (h : p.startInstance tag = .ok p') : Grown p p' := by
  refine (closeInstance_grown p).trans ?_
  unfold startInstance at h
  dsimp only at h
  split at h
  · cases h
    exact .refl _
  · split at h
    · cases h
    · obtain ⟨depth, -, h⟩ := bind_eq_ok h
      cases h
      exact ⟨rfl, by simp [uses]⟩

theorem joinGroup_grown (h : joinGroup tag stack p = .ok p') : Grown p p' := by
  induction stack generalizing p with
  | nil =>
    cases h
    exact .refl _
  | cons frame outer ih =>
    rw [joinGroup] at h
    split at h
    · exact startInstance_grown h
    · split at h
      · split at h
        · cases h
        · cases h
          exact .refl _
      · obtain ⟨q, hclose, h⟩ := bind_eq_ok h
        exact (closeGroup_grown hclose).trans (ih h)

theorem closeAll_grown (h : closeAll stack p = .ok p') : Grown p p' := by
  induction stack generalizing p with
  | nil =>
    cases h
    exact .refl _
  | cons frame outer ih =>
    obtain ⟨q, hclose, h⟩ := bind_eq_ok h
    exact (closeGroup_grown hclose).trans (ih h)

theorem leaveHeader_grown (p : Parser) : Grown p p.leaveHeader :=
  ⟨rfl, by simp [leaveHeader, Message.pushGap, uses]⟩

theorem enterRegion_grown (h : p.enterRegion tag = .ok p') : Grown p p' := by
  unfold enterRegion at h
  dsimp only at h
  split at h
  · split at h
    · cases h
      exact .refl _
    · split at h <;> cases h <;> exact ⟨rfl, (leaveHeader_grown p).uses⟩
  · split at h
    · cases h
    · split at h <;> cases h <;> exact ⟨rfl, List.prefix_refl _⟩
  · split at h
    · cases h
      exact .refl _
    · cases h

theorem finishRegions_grown (p : Parser) : Grown p p.finishRegions := by
  unfold finishRegions
  split
  · exact ⟨rfl, (leaveHeader_grown p).uses⟩
  · exact ⟨rfl, List.prefix_refl _⟩
  · exact .refl _

theorem place_grown {entry value depth} (h : p.place entry value depth = .ok p') : Grown p p' := by
  unfold place at h
  split at h
  · cases h
    exact ⟨rfl, by simp [uses]⟩
  · split at h
    · cases h
    · dsimp only at h
      split at h <;> cases h <;> exact ⟨rfl, by simp [uses]⟩

end

/-! ## Remembering other places -/

section

variable (o : Option (List Nat)) (p : Parser)

theorem push_marking (entry : Entry) (value : Bytes) :
    (p.marking o).push entry value = (p.push entry value).map (marking o) :=
  (push_beside (k := { p.aside with terminators := o }) rfl entry value).trans
    (map_beside (fun a => { a with terminators := o }) fun _ => push_aside)

theorem closeAll_marking (stack : List Frame) :
    closeAll stack (p.marking o) = (closeAll stack p).map (marking o) :=
  (closeAll_onTape stack).map (fun a => { a with terminators := o }) p

theorem framingRules_marking (tag fieldStart : Nat) (value : Bytes) :
    (p.marking o).framingRules tag fieldStart value =
      (p.framingRules tag fieldStart value).map fun r => (r.1.marking o, r.2) := by
  unfold framingRules
  simp only [marking]
  cases checkPlace p.framing p.ordinal tag with
  | error e => rfl
  | ok u =>
    refine ite_eq_map (fun _ => rfl) fun _ => ite_eq_map (fun _ => ?_) fun _ =>
      ite_eq_map (fun _ => ite_eq_map (fun _ => rfl) fun _ => rfl) fun _ =>
        ite_eq_map (fun _ => ?_) fun _ => rfl
    · cases parseUint value <;> rfl
    · cases readChecksum value <;> rfl

/-- Taking a field remembers where it ended. What is taken depends on the bytes only
through the value. -/
theorem take_marking {buf buf' x} (hvalue : slice buf x.valStart (x.valEnd - x.valStart) =
      slice buf' x.valStart (x.valEnd - x.valStart)) (pos : Nat) : (p.marking o).take buf pos x =
      (p.take buf' pos x).map fun r => (r.1.marking (o.map (· ++ [x.valEnd])), r.2) := by
  unfold take
  rw [hvalue]
  dsimp only
  rw [framingRules_marking]
  cases p.framingRules x.tag pos (slice buf' x.valStart (x.valEnd - x.valStart)) with
  | error e => rfl
  | ok r =>
    obtain ⟨p', isLast⟩ := r
    simp only [Except.map, bind, Except.bind]
    rw [push_marking]
    cases p'.push _ _ <;> rfl

theorem finishRegions_marking : (p.marking o).finishRegions = p.finishRegions.marking o := by
  unfold finishRegions
  simp only [marking]
  split <;> rfl

end

end Parser

end Babelfix.Tape
