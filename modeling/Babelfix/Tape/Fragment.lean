import Babelfix.Tape.Announced
import Babelfix.Tape.Reencode

/-! # Fragments

A fragment is read with fewer rules than a message. What is accepted as a message is
accepted as a fragment too, and gives the same message, if the dictionary keeps header
and trailer apart and BeginString is an ordinary field. -/
namespace Babelfix.Tape

/-- The dictionary has no tag in header and trailer both. -/
def Dictionary.Splits (d : Dictionary) : Prop :=
  ∀ tag, d.isHeader tag = true → d.isTrailer tag = false

variable {d : Dictionary}

namespace Parser

/-- The parser under other rules. -/
def under (framing : Framing) (p : Parser) : Parser := { p with framing }

variable {entry : Entry} {value : Bytes}

section

variable (framing : Framing) (p : Parser)

@[simp] theorem msg_under : (p.under framing).msg = p.msg := rfl

@[simp] theorem stack_under : (p.under framing).stack = p.stack := rfl

theorem OnTape.under {op : Parser → Except Fault Parser} (h : OnTape op) :
    op (p.under framing) = (op p).map (under framing) :=
  h.map (fun k => { k with framing }) p

theorem OnTape.rules {op} (h : OnTape op) {p p'} (hp : op p = .ok p') :
    p'.framing = p.framing := congrArg Aside.framing (h.keeps hp)

theorem finishRegions_under :
    (p.under framing).finishRegions = p.finishRegions.under framing := by
  unfold finishRegions
  simp only [under]
  split <;> rfl

end

/-! ## Fields of a message in a fragment -/

variable {p p' : Parser}

variable {tag : Nat}

/-- Only a header field is late, and none is accepted after the header. -/
theorem not_late_of_enterRegion (hd : p.msg.dict.Splits) (h : p.enterRegion tag = .ok p') :
    ¬ (p.under .fragment).isLateHeader tag := by
  intro hlate
  simp only [isLateHeader, under, true_and, decide_eq_true_eq] at hlate
  obtain ⟨hregion, hheader⟩ := hlate
  unfold enterRegion at h
  cases hr : p.region with
  | header => exact hregion hr
  | body =>
    simp only [hr, hheader, if_true] at h
    cases h
  | trailer =>
    simp only [hr, hd tag hheader] at h
    cases h

theorem settle_fragment (hd : p.msg.dict.Splits) (hstrict : p.framing = .strict)
    (h : p.settle entry value = .ok p') :
    (p.under .fragment).settle entry value = .ok (p'.under .fragment) := by
  unfold settle at h ⊢
  rw [stack_under]
  cases hstack : p.stack with
  | cons frame outer =>
    simp only [hstack] at h ⊢
    obtain ⟨depth, hdepth, h⟩ := bind_eq_ok h
    rw [hdepth]
    change (p.under .fragment).place entry value depth = _
    rw [(place_onTape _ _ _).under, h]
    rfl
  | nil =>
    simp only [hstack] at h ⊢
    rw [if_neg (by simp [isLateHeader, hstrict])] at h
    obtain ⟨q, henter, h⟩ := bind_eq_ok h
    rw [if_neg (not_late_of_enterRegion hd henter), (enterRegion_onTape _).under, henter]
    change (q.under .fragment).place entry value 0 = _
    rw [(place_onTape _ _ _).under, h]
    rfl

variable {stack : List Frame}

theorem push_fragment (hd : p.msg.dict.Splits) (hstrict : p.framing = .strict)
    (h : p.push entry value = .ok p') :
    (p.under .fragment).push entry value = .ok (p'.under .fragment) := by
  obtain ⟨q, hjoin, h⟩ := bind_eq_ok h
  have hdict : q.msg.dict.Splits := by rwa [(joinGroup_grown hjoin).dict]
  have hframing := ((joinGroup_onTape _ _).rules hjoin).trans hstrict
  unfold push
  rw [stack_under, (joinGroup_onTape _ _).under, hjoin]
  exact settle_fragment hdict hframing h

theorem push_framing (h : p.push entry value = .ok p') : p'.framing = p.framing :=
  congrArg Aside.framing (push_aside h)

variable {isLast : Bool}

theorem framingRules_fragment {pos} (h : p.framingRules tag pos value = .ok (p', isLast)) :
    (p.under .fragment).framingRules tag pos value = .ok (p'.under .fragment, isLast) := by
  obtain ⟨u, hplace, -⟩ := bind_eq_ok h
  have hsame : (p.under .fragment).framingRules tag pos value =
      (p.framingRules tag pos value).map fun r => (r.1.under .fragment, r.2) := by
    unfold framingRules
    rw [hplace]
    refine ite_eq_map (fun _ => rfl) fun _ => ite_eq_map (fun _ => ?_) fun _ =>
      ite_eq_map (fun _ => ite_eq_map (fun _ => rfl) fun _ => rfl) fun _ =>
        ite_eq_map (fun _ => ?_) fun _ => rfl
    · cases parseUint value <;> rfl
    · cases readChecksum value <;> rfl
  rw [hsame, h]
  rfl

variable {buf : Bytes}

theorem take_fragment {pos x} (hd : p.msg.dict.Splits) (hstrict : p.framing = .strict)
    (h : p.take buf pos x = .ok (p', isLast)) :
    (p.under .fragment).take buf pos x = .ok (p'.under .fragment, isLast) ∧
      p'.framing = .strict := by
  obtain ⟨⟨q, last⟩, hrules, h⟩ := bind_eq_ok h
  obtain ⟨r, hpush, h⟩ := bind_eq_ok h
  cases h
  have hruled := (framingRules_ruled hrules).same
  have hdict : q.msg.dict.Splits := by
    rw [hruled]
    exact hd
  have hframing : q.framing = .strict := by
    rw [hruled]
    exact hstrict
  refine ⟨?_, (push_framing hpush).trans hframing⟩
  unfold take
  dsimp only
  rw [framingRules_fragment hrules]
  simp only [bind, Except.bind]
  rw [push_fragment hdict hframing hpush]
  rfl

variable {delim : UInt8}

theorem loop_fragment {fuel s s'} (hd : s.parser.msg.dict.Splits)
    (hstrict : s.parser.framing = .strict) (h : loop buf delim fuel s = .ok s') :
    loop buf delim fuel { s with parser := s.parser.under .fragment } =
        .ok { s' with parser := s'.parser.under .fragment } ∧ s'.parser.framing = .strict := by
  induction fuel generalizing s with
  | zero =>
    cases h
    exact ⟨rfl, hstrict⟩
  | succ fuel ih =>
    rw [loop] at h ⊢
    split at h
    · rename_i hpos
      obtain ⟨x, hlex, h⟩ := bind_eq_ok h
      obtain ⟨⟨q, isLast⟩, htake, h⟩ := bind_eq_ok h
      obtain ⟨htake', hframing⟩ := take_fragment hd hstrict htake
      dsimp only at h ⊢
      rw [if_pos hpos, msg_under, hlex]
      simp only [bind, Except.bind]
      rw [htake']
      dsimp only
      split at h
      · rename_i hlast
        cases h
        rw [if_pos hlast]
        exact ⟨rfl, hframing⟩
      · rename_i hlast
        rw [if_neg hlast]
        have hdict : q.msg.dict.Splits := by rwa [take_dict htake]
        exact ih hdict hframing h
    · rename_i hpos
      cases h
      exact ⟨if_neg hpos, hstrict⟩

/-! ## Fields stay on the tape -/

theorem push_uses (hstrict : p.framing = .strict) (h : p.push entry value = .ok p') :
    uses p.msg.tape <+: uses p'.msg.tape := by
  obtain ⟨q, hjoin, h⟩ := bind_eq_ok h
  have hframing := ((joinGroup_onTape _ _).rules hjoin).trans hstrict
  refine (joinGroup_grown hjoin).uses.trans ?_
  unfold settle at h
  split at h
  · obtain ⟨depth, -, h⟩ := bind_eq_ok h
    exact (place_grown h).uses
  · rw [if_neg (by simp [isLateHeader, hframing])] at h
    obtain ⟨r, henter, h⟩ := bind_eq_ok h
    exact ((enterRegion_grown henter).trans (place_grown h)).uses

/-- BeginString is a field on the tape. -/
def Begins (tape : List Entry) : Prop := (tape.any fun e => e.tag = 8 && e.isField) = true

theorem Begins.of_uses {tape tape'} (h : Begins tape) (huses : uses tape <+: uses tape') :
    Begins tape' := by
  have hany (tape : List Entry) : Begins tape ↔ ∃ u ∈ uses tape, u.1 = 8 ∧
      Entry.isField { kind := u.2 } = true := by
    simp [Begins, uses, Entry.isField]
  obtain ⟨u, hu, h8⟩ := (hany tape).mp h
  exact (hany tape').mpr ⟨u, huses.subset hu, h8⟩

variable {o : Option (List Nat)}

/-- The first field of a message is BeginString, and goes on the tape if it opens no
group. -/
theorem begins_of_take (h8 : d.topLevelGroup none (d.isHeader 8) 8 = none) {x}
    (hlex : lexField d buf delim 0 none = .ok x)
    (h : ((new d .strict).marking o).take buf 0 x = .ok (p', isLast)) : Begins p'.msg.tape := by
  obtain ⟨⟨q, last⟩, hrules, h⟩ := bind_eq_ok h
  obtain ⟨r, hpush, h⟩ := bind_eq_ok h
  cases h
  have htag : x.tag = 8 := by
    obtain ⟨u, hplace, -⟩ := bind_eq_ok hrules
    exact (checkPlace_first rfl).mp hplace
  have hkind : Entry.isField { kind := x.kind } = true := by
    have hlex : lexField d ([] ++ buf) delim ([] : Bytes).length none = .ok x := hlex
    obtain ⟨t, rest, pending', -, -, hfollows, rfl⟩ := lexField_found hlex
    cases hfollows <;> rfl
  obtain rfl : q = { (new d .strict).marking o with ordinal := 1 } := by
    rw [htag] at hrules
    obtain ⟨u, -, hrules⟩ := bind_eq_ok hrules
    dsimp only at hrules
    split at hrules
    · cases hrules
    · simp only [Nat.reduceEqDiff, if_false] at hrules
      cases hrules
      rfl
  obtain ⟨q₁, hjoin, hpush⟩ := bind_eq_ok hpush
  cases hjoin
  simp only [marking, new] at hpush
  obtain ⟨q₂, henter, hplace⟩ := bind_eq_ok hpush
  have hopens : q₂.opens 8 = none := by
    rw [htag] at henter
    unfold enterRegion at henter
    dsimp only at henter
    split at henter
    · rename_i hheader
      cases henter
      rw [hheader] at h8
      exact h8
    · rename_i hheader
      rw [Bool.not_eq_true] at hheader
      rw [hheader] at h8
      split at henter <;> cases henter <;> exact h8
  unfold place at hplace
  simp only [htag, hopens, ite_self] at hplace
  cases hplace
  simp [Begins, Entry.isField] at hkind ⊢
  exact .inr hkind

theorem Runs.begins (h8 : d.topLevelGroup none (d.isHeader 8) 8 = none) {s last}
    (h : Runs buf delim ⟨(new d .strict).marking o, 0, none⟩ s last) : s.parser.framing = .strict ∧
      (s = ⟨(new d .strict).marking o, 0, none⟩ ∨ Begins s.parser.msg.tape) := by
  induction h with
  | start => exact ⟨rfl, .inl rfl⟩
  | @next s x q isLast _ _ hlex htake ih =>
    obtain ⟨hstrict, hs⟩ := ih
    obtain ⟨⟨r, last⟩, hrules, h⟩ := bind_eq_ok htake
    obtain ⟨r', hpush, h⟩ := bind_eq_ok h
    have hruled := (framingRules_ruled hrules).same
    have hframing : r.framing = .strict := by
      rw [hruled]
      exact hstrict
    have hq : q.framing = .strict ∧ uses s.parser.msg.tape <+: uses q.msg.tape := by
      cases h
      refine ⟨(push_framing hpush).trans hframing, ?_⟩
      have huses := push_uses hframing hpush
      rwa [show r.msg.tape = s.parser.msg.tape by rw [hruled]] at huses
    refine ⟨hq.1, .inr ?_⟩
    rcases hs with rfl | hbegins
    · exact begins_of_take h8 hlex htake
    · exact hbegins.of_uses hq.2

/-! ## Whole messages -/

/-- What ends well as a message ends well as a fragment: BeginString need not be
supplied. -/
theorem conclude_fragment {wire r} (hstrict : p.framing = .strict) (hbegins : Begins p.msg.tape)
    (h : p.conclude wire delim = .ok r) :
    (p.under .fragment).conclude wire delim = .ok ({ r.1 with clean := false }, r.2) := by
  rw [conclude_of_strict hstrict] at h
  obtain ⟨u, -, h⟩ := bind_eq_ok h
  have hsupply : (p.finishRegions.under .fragment).supplyBeginString =
      p.finishRegions.under .fragment := if_pos (hbegins.of_uses (finishRegions_grown p).uses)
  unfold conclude
  rw [finishRegions_under]
  change (if _ then _ else _) = _
  rw [hsupply]
  split at h
  · cases h
  · rename_i htyped
    cases h
    rw [msg_under, if_neg htyped]
    simp [under, pure, Except.pure]

/-- What is read as a message is read as a fragment. -/
theorem run_fragment (hd : d.Splits) (h8 : d.topLevelGroup none (d.isHeader 8) 8 = none) {wire r}
    (h : ((new d .strict).marking o).run wire delim = .ok r) :
    ((new d .fragment).marking o).run wire delim = .ok ({ r.1 with clean := false }, r.2) := by
  obtain ⟨s, hloop, h⟩ := bind_eq_ok h
  obtain ⟨last, hruns⟩ := loop_runs .start hloop
  obtain ⟨hframing, hs⟩ := hruns.begins h8
  obtain ⟨hloop', -⟩ := loop_fragment (s := ⟨(new d .strict).marking o, 0, none⟩) hd rfl hloop
  change (loop wire delim wire.length ⟨((new d .strict).marking o).under .fragment, 0, none⟩ >>= _) = _
  rw [hloop']
  simp only [bind, Except.bind]
  split at h
  · cases h
  · rename_i hpending
    rw [if_neg hpending]
    split at h
    · cases h
    · rename_i hpos
      rw [if_neg hpos]
      obtain ⟨p, hclose, h⟩ := bind_eq_ok h
      have hstrict := ((closeAll_onTape _).rules hclose).trans hframing
      have hbegins : Begins p.msg.tape := by
        rcases hs with rfl | hbegins
        · -- without a field there is no CheckSum
          cases h
        · exact hbegins.of_uses (closeAll_grown hclose).uses
      rw [stack_under, (closeAll_onTape _).under, hclose]
      exact conclude_fragment hstrict hbegins h

end Parser

theorem piecesFrom_unclean (m : Message) (run : Option Run) (l : List (Nat × Entry)) :
    Message.piecesFrom { m with clean := false } run l = m.piecesFrom run l := by
  induction l generalizing run with
  | nil => rfl
  | cons x l ih =>
    simp only [Message.piecesFrom, ih]
    rfl

/-- What is written does not depend on where the message came from. -/
theorem encodeDelimited_unclean (m : Message) (out : Bytes) (delim : UInt8) :
    Message.encodeDelimited { m with clean := false } out delim = m.encodeDelimited out delim := by
  have hpieces : Message.pieces { m with clean := false } = m.pieces := piecesFrom_unclean m none m.visit
  unfold Message.encodeDelimited
  rw [hpieces]
  rfl

theorem getLast_textsWith (delim : UInt8) (ts : List Token) (t : Token) :
    (textsWith delim (ts ++ [t])).getLast? = some delim := by
  have hsplit : textsWith delim (ts ++ [t]) =
      (textsWith delim ts ++ writeUint t.tag ++ 61 :: t.value) ++ [delim] := by
    simp [Token.textWith]
  rw [hsplit, List.getLast?_concat]

/-- **A message is a fragment.** What is accepted as a message with some delimiter is
accepted as a fragment with it, the messages are equal, and so is what is written for
them. -/
theorem fragment_of_message {d : Dictionary} (hd : d.Splits)
    (h8 : d.topLevelGroup none (d.isHeader 8) 8 = none) {bytes : Bytes} {delim : UInt8} {m : Message}
    (h : Message.parseDelimited d bytes delim = .ok m) :
    ∃ m', Message.parseFragment d bytes delim = .ok m' ∧ m'.eq m = true ∧
      ∀ out, m'.encodeDelimited out delim = m.encodeDelimited out delim := by
  have hlast : bytes.getLast? = some delim := by
    obtain ⟨e, msgDef, s, rfl, -⟩ := parseDelimited_iff.mp h
    exact getLast_textsWith delim e.head e.sum
  unfold Message.parseDelimited Message.parseCopy at h
  rw [if_neg (by simp)] at h
  obtain ⟨r, hrun, hm⟩ := bind_eq_ok h
  have hrun' := Parser.run_fragment hd h8 (o := some []) hrun
  refine ⟨{ m with clean := false }, ?_, ?_, fun out => encodeDelimited_unclean m out delim⟩
  · unfold Message.parseFragment Message.parseCopy
    rw [if_neg (by simp [hlast])]
    change ((((Parser.new d .fragment).marking (some [])).run bytes delim) >>= _) = _
    rw [hrun']
    cases hm
    by_cases hsoh : delim = soh <;> simp [bind, Except.bind, pure, Except.pure, hsoh]
  · simp [Message.eq]
    rfl

theorem Dictionary.splits_of_fields (h : ∀ x ∈ d.fields, x.2.header = true → x.2.trailer = false) :
    d.Splits := by
  intro tag hheader
  unfold Dictionary.isHeader at hheader
  unfold Dictionary.isTrailer
  cases hget : d.fields.get tag with
  | none => rfl
  | some info =>
    rw [hget] at hheader
    exact h (tag, info) (mem_of_lookup hget) hheader

/-- A message with a group, as a fragment. -/
theorem fragment_of_partyOrder :
    ∃ m m', Message.parseDelimited orders partyOrder soh = .ok m ∧
      Message.parseFragment orders partyOrder soh = .ok m' ∧ m'.eq m = true ∧
      ∀ out, m'.encodeDelimited out soh = m.encodeDelimited out soh := by
  have hok : (Message.parseDelimited orders partyOrder soh).isOk = true := by decide +kernel
  obtain ⟨m, hm⟩ := exists_of_isOk hok
  have hsplits : orders.Splits := Dictionary.splits_of_fields (by decide)
  obtain ⟨m', h⟩ := fragment_of_message hsplits rfl hm
  exact ⟨m, m', hm, h⟩

/-- A dictionary in which BeginString counts a group of the header. -/
def groupFirst : Dictionary :=
  { orders with beginString := ascii "0", headerGroups := [(8, 0)] }

/-- As a message and as a fragment, a text gives different messages. -/
def Differs (d : Dictionary) (w : Bytes) : Prop :=
  ∃ m m', Message.parseDelimited d w soh = .ok m ∧ Message.parseFragment d w soh = .ok m' ∧
    m'.eq m = false

theorem differs_of_eval {w} (h : ((Message.parseDelimited d w soh).toOption.bind fun m =>
      (Message.parseFragment d w soh).toOption.map fun m' => m'.eq m) = some false) :
    Differs d w := by
  obtain ⟨m, hm, h⟩ := Option.bind_eq_some_iff.mp h
  obtain ⟨m', hm', h⟩ := Option.map_eq_some_iff.mp h
  exact ⟨m, m', toOption_eq_some.mp hm, toOption_eq_some.mp hm', h⟩

/-- **Not every message is the same as a fragment**: a tag of both header and trailer is
moved from the trailer to the header, and BeginString is supplied where it counts a
group. -/
theorem fragment_differs :
    (sharedTag.topLevelGroup none (sharedTag.isHeader 8) 8 = none ∧ Differs sharedTag shared) ∧
      groupFirst.Splits ∧ Differs groupFirst (wireOf "8=0|9=5|35=D|10=060|") :=
  ⟨⟨rfl, differs_of_eval (by decide +kernel)⟩, Dictionary.splits_of_fields (by decide),
    differs_of_eval (by decide +kernel)⟩

end Babelfix.Tape
