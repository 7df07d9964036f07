import Babelfix.Tape.Accept
import Babelfix.Tape.Pairing

/-! # Reading any bytes

What holds each time around the parser's loop, for a complete message or a fragment, any
delimiter and any dictionary: the fields taken so far stand one after the other, the tape
is a draft of them, and Lengths and data stand together if the dictionary keeps them
together. Two entries at most are made of each field. -/
namespace Babelfix.Tape

open Lib

/-! ## The fields that were read -/

/-- `e` is the entry of `t`, one of the fields `ts`. -/
def Names (ts : List Token) (e : Entry) (t : Token) : Prop :=
  ∃ pre post, ts = pre ++ t :: post ∧ e = t.fieldEntry e.depth (texts pre).length

def Named (ts : List Token) (e : Entry) : Prop := ∃ t, Names ts e t

/-- `e` is the entry of a Length that says `n`. -/
def Stated (ts : List Token) (e : Entry) (n : Nat) : Prop :=
  ∃ t, Names ts e t ∧ parseUint t.value = .ok n

variable {ts : List Token} {e : Entry} {t : Token}

theorem Names.append (h : Names ts e t) (us : List Token) : Names (ts ++ us) e t := by
  obtain ⟨pre, post, rfl, he⟩ := h
  exact ⟨pre, post ++ us, by simp, he⟩

theorem Named.append (us : List Token) (h : Named ts e) :
    Named (ts ++ us) e := by
  obtain ⟨t, ht⟩ := h
  exact ⟨t, ht.append us⟩

theorem Stated.append {n} (us : List Token) (h : Stated ts e n) : Stated (ts ++ us) e n := by
  obtain ⟨t, ht, hn⟩ := h
  exact ⟨t, ht.append us, hn⟩

theorem names_last (ts : List Token) (t : Token) (depth : Nat) :
    Names (ts ++ [t]) { t.fieldEntry 0 (texts ts).length with depth } t :=
  ⟨ts, [], rfl, rfl⟩

theorem Token.IsField.isField_fieldEntry (h : t.IsField) (depth pos : Nat) :
    (t.fieldEntry depth pos).isField := by
  rcases h with h | h | h <;> simp [Token.fieldEntry, Entry.isField, h]

variable {delim : UInt8} {d : Dictionary}

/-- What a field takes and announces, its entry takes and announces. -/
theorem Token.FollowsBy.announces {pending pending'} (h : t.FollowsBy delim d pending pending')
    (pos : Nat) (hlen : t.value.length < 2 ^ 32) {L}
    (hL : ∀ depth n, parseUint t.value = .ok n → L { t.fieldEntry 0 pos with depth } n) :
    Announces L (t.fieldEntry 0 pos) (pending.map Prod.snd) (pending'.map Prod.snd) := by
  cases h with
  | data tag value =>
    refine ⟨fun depth => ⟨rfl, ?_, rfl⟩, fun hkind => by cases hkind⟩
    simp [Token.fieldEntry, asU32_of_lt hlen]
  | length hkind hn hdelim =>
    exact ⟨fun depth => ⟨rfl, rfl, _, hL depth _ hn, rfl⟩, fun hkind => by cases hkind⟩
  | field hkind hdelim => exact ⟨fun depth => ⟨rfl, rfl, rfl⟩, fun _ => ⟨rfl, rfl⟩⟩

/-! ## Taking a field -/

variable {pos : Nat}

section

variable {d : Dictionary} {framing : Framing} {P : Entry → Prop} {L : Entry → Nat → Prop}
variable {z : Draft} {p p' : Parser}

theorem Drafted.push_paired (hd : d.Compiled) (hdata : d.KeepsData) (h : Drafted d framing P z p)
    (hsize : p.msg.tape.length + headerGap + 1 < 2 ^ 32) {spot pending pending'}
    (hpaired : PairedDraft L spot (pending.map Prod.snd) z)
    (hawaits : ∀ x ∈ pending, Awaits p spot x.1) (hvalid : t.Valid)
    (hfollows : t.FollowsBy delim d pending pending') (hlen : t.value.length < 2 ^ 32)
    (hP : ∀ depth, P { t.fieldEntry 0 pos with depth })
    (hL : ∀ depth n, parseUint t.value = .ok n → L { t.fieldEntry 0 pos with depth } n)
    (hpush : p.push (t.fieldEntry 0 pos) t.value = .ok p') : ∃ z' spot', Drafted d framing P z' p' ∧
      p'.msg.tape.length + z'.room ≤ p.msg.tape.length + z.room + 2 ∧
      PairedDraft L spot' (pending'.map Prod.snd) z' ∧ ∀ x ∈ pending', Awaits p' spot' x.1 := by
  have hfield := hfollows.isField.isField_fieldEntry 0 pos
  have hannounces := hfollows.announces pos hlen hL
  cases pending with
  | some x =>
    -- the data is awaited: it goes right after its Length
    have hawait : Awaits p spot t.tag := by
      have := hawaits _ rfl
      cases hfollows
      exact this
    have hpending' : pending' = none := by
      cases hfollows
      rfl
    rw [hawait.push_eq (t.fieldEntry 0 pos)] at hpush
    have hinst := h.inst_ne_none fun frame hf => (hawait.inside frame hf).1
    obtain ⟨z', hsettles, hdrafted, hroom⟩ := h.settle (by omega) hinst hfield hP hpush
    refine ⟨z', _, hdrafted, by omega, hpaired.settles hsettles hinst ?_ hannounces, by simp [hpending']⟩
    intro hnil _
    obtain ⟨hspot, hstay⟩ := hawait.top (h.opened_eq_nil.mp hnil)
    rw [h.region] at hspot
    exact ⟨hspot, fun hlate => ⟨(hstay hlate).enterRegion, h.region⟩⟩
  | none =>
    obtain ⟨p₁, z₁, z', -, hsettle, hjoins, hdrafted₁, hframe, hsettles, hdrafted', hroom⟩ :=
      h.push hsize hfield hP hpush
    have hinst := hdrafted₁.inst_ne_none fun frame hf => (hframe frame hf).1
    refine ⟨z', _, hdrafted', hroom,
      (hpaired.joins hjoins h.sane).settles hsettles hinst (fun _ hne => absurd rfl hne) hannounces,
      ?_⟩
    intro x hx
    have hlength : d.kind t.tag = .dataLength x.1 ∧ t.kind = .dataLen := by
      cases hfollows with
      | length hkind _ _ =>
        cases hx
        exact ⟨hkind, rfl⟩
      | field => cases hx
    have hlt : ∀ frame ∈ p₁.stack, frame.group < d.groups.length := fun frame hf =>
      hdrafted₁.chain.lt hd _ (List.mem_map_of_mem hf)
    have hkind : (t.fieldEntry 0 pos).kind ≠ .field := by
      rw [show (t.fieldEntry 0 pos).kind = t.kind from rfl, hlength.2]
      simp
    have := awaits_of_settle hd hdata hdrafted₁.dict hlt hframe hvalid.tag_pos hkind hlength.1 hsettle
    rwa [hdrafted'.region] at this

end

variable {p : Parser}

theorem Drafted.marking {framing P z} (h : Drafted d framing P z p) (o : Option (List Nat)) :
    Drafted d framing P z (p.marking o) :=
  { h with }

/-! ## The framing rules -/

/-- What the framing rules change. -/
structure Parser.Ruled (tag pos : Nat) (value : Bytes) (p p' : Parser) (isLast : Bool) : Prop where
  same : p' = { p with
    msg := { p.msg with msgDef := p'.msg.msgDef }, ordinal := p.ordinal + 1
    checksum := p'.checksum, bodyLength := p'.bodyLength }
  msgDef : p'.msg.msgDef = p.msg.msgDef ∨ p'.msg.msgDef = p.msg.dict.message value
  checksum : if isLast then ∃ n, p'.checksum = some (pos, n) else p'.checksum = p.checksum
  bodyLength : p'.bodyLength = p.bodyLength ∨
    isLast = false ∧ tag = 9 ∧ ∃ n, p'.bodyLength = some (n, pos + 2 + value.length + 1)

variable {tag : Nat} {value : Bytes} {p' : Parser} {isLast : Bool}

theorem Parser.framingRules_ruled (h : p.framingRules tag pos value = .ok (p', isLast)) :
    Ruled tag pos value p p' isLast := by
  obtain ⟨-, -, h⟩ := bind_eq_ok h
  dsimp only at h
  split at h
  · cases h
  · split at h
    · rename_i h9
      split at h
      · cases h
      · cases h
        exact ⟨rfl, .inl rfl, rfl, .inr ⟨rfl, h9, _, rfl⟩⟩
    · split at h
      · split at h
        · cases h
          exact ⟨rfl, .inr rfl, rfl, .inl rfl⟩
        · cases h
      · split at h
        · obtain ⟨n, -, h⟩ := bind_eq_ok h
          cases h
          exact ⟨rfl, .inl rfl, ⟨n, rfl⟩, .inl rfl⟩
        · cases h
          exact ⟨rfl, .inl rfl, rfl, .inl rfl⟩

theorem Parser.Ruled.drafted {framing P z} (h : Ruled tag pos value p p' isLast)
    (hp : Drafted d framing P z p) : Drafted d framing P z p' := by
  have hmsgDef : ∀ m ∈ p'.msg.msgDef, ∃ msgType, d.message msgType = some m := by
    intro m hm
    rcases h.msgDef with hsame | htyped
    · exact hp.msgDef m (hsame ▸ hm)
    · rw [hp.dict] at htyped
      exact ⟨value, htyped ▸ hm⟩
  rw [h.same]
  exact { hp with msgDef := hmsgDef }

theorem Awaits.ruled {spot data} (h : Awaits p spot data)
    (hruled : Parser.Ruled tag pos value p p' isLast) : Awaits p' spot data := by
  rw [hruled.same]
  exact ⟨h.inside, h.top⟩

/-! ## The loop -/

/-- The states in which the loop goes around, and whether the last field ended it. -/
inductive Parser.Runs (buf : Bytes) (delim : UInt8) (s₀ : Progress) : Progress → Bool → Prop
  | start : Runs buf delim s₀ s₀ false
  | next {s : Progress} {x : Lexed} {p : Parser} {isLast : Bool} (h : Runs buf delim s₀ s false)
      (hpos : s.pos < buf.length)
      (hlex : lexField s.parser.msg.dict buf delim s.pos s.pending = .ok x)
      (htake : s.parser.take buf s.pos x = .ok (p, isLast)) :
      Runs buf delim s₀ ⟨p, x.valEnd + 1, x.pending⟩ isLast

theorem Parser.loop_runs {buf s₀ s s' fuel} (hs : Runs buf delim s₀ s false)
    (h : loop buf delim fuel s = .ok s') : ∃ last, Runs buf delim s₀ s' last := by
  induction fuel generalizing s with
  | zero =>
    cases h
    exact ⟨_, hs⟩
  | succ fuel ih =>
    rw [loop] at h
    split at h
    · rename_i hpos
      obtain ⟨x, hlex, h⟩ := bind_eq_ok h
      obtain ⟨⟨p, isLast⟩, htake, h⟩ := bind_eq_ok h
      dsimp only at h
      split at h
      · cases h
        exact ⟨_, hs.next hpos hlex htake⟩
      · rename_i hlast
        rw [Bool.not_eq_true] at hlast
        subst hlast
        exact ih (hs.next hpos hlex htake) h
    · cases h
      exact ⟨_, hs⟩

theorem length_texts_le (h : ∀ t ∈ ts, t.Valid) :
    4 * ts.length ≤ (texts ts).length := by
  induction ts with
  | nil => simp
  | cons t ts ih =>
    have hhead := (h t List.mem_cons_self).length_text_le
    have htail := ih fun u hu => h u (List.mem_cons_of_mem _ hu)
    rw [texts_cons, List.length_append, List.length_cons]
    omega

theorem stops_append (pos : Nat) (ts us : List Token) :
    stops pos (ts ++ us) = stops pos ts ++ stops (pos + (texts ts).length) us := by
  induction ts generalizing pos with
  | nil => rfl
  | cons t ts ih =>
    rw [List.cons_append, stops, stops, ih, texts_cons, List.length_append, ← Nat.add_assoc pos,
      List.cons_append]

/-- What the parser has noted of the fields `ts`. `places` are the places remembered at
the start. -/
structure Noted (places : Option (List Nat)) (ts : List Token) (p : Parser) (last : Bool) : Prop where
  terminators : p.terminators = places.map (· ++ stops 0 ts)
  ordinal : p.ordinal = ts.length
  checksum : ∀ c ∈ p.checksum, last = true ∧ c.1 ≤ (texts ts).length ∧ 0 < ts.length ∧
    ∀ b ∈ p.bodyLength, b.2 ≤ c.1
  bodyLength : ∀ b ∈ p.bodyLength, b.2 ≤ (texts ts).length

theorem Noted.next {places} {p₁ p₂ : Parser} (h : Noted places ts p false)
    (hruled : Parser.Ruled t.tag (texts ts).length t.value p p₁ isLast)
    (hnotes : p₂.notes = p₁.notes) : Noted places (ts ++ [t]) (p₂.marking (p₂.terminators.map
      (· ++ [(texts ts).length + t.valOff + t.value.length]))) isLast := by
  have hchecksum : p₂.checksum = p₁.checksum := congrArg Parser.Notes.checksum hnotes
  have hbodyLength : p₂.bodyLength = p₁.bodyLength := congrArg Parser.Notes.bodyLength hnotes
  have hmarks : p₂.terminators = p₁.terminators := congrArg Parser.Notes.terminators hnotes
  have hordinal : p₂.ordinal = p₁.ordinal := congrArg Parser.Notes.ordinal hnotes
  have hlen : (texts (ts ++ [t])).length = (texts ts).length + (t.valOff + t.value.length + 1) := by
    simp
  refine ⟨?_, ?_, ?_, ?_⟩
  · have hsame : p₁.terminators = p.terminators := by rw [hruled.same]
    simp only [Parser.marking, hmarks, hsame, h.terminators, stops_append, stops]
    cases places <;> simp
  · have hsame : p₁.ordinal = p.ordinal + 1 := by rw [hruled.same]
    simp only [Parser.marking, hordinal, hsame, h.ordinal, List.length_append, List.length_singleton]
  · intro c hc
    simp only [Parser.marking, hchecksum, hbodyLength] at hc ⊢
    have hsum := hruled.checksum
    cases isLast with
    | false =>
      rw [hsum] at hc
      cases (h.checksum c hc).1
    | true =>
      obtain ⟨n, hn⟩ := hsum
      rw [hn] at hc
      cases hc
      refine ⟨rfl, by omega, by simp, ?_⟩
      rcases hruled.bodyLength with hsame | ⟨hnot, -⟩
      · intro b hb
        exact h.bodyLength b (hsame ▸ hb)
      · cases hnot
  · intro b hb
    simp only [Parser.marking, hbodyLength] at hb ⊢
    rcases hruled.bodyLength with hsame | ⟨-, hnine, n, hn⟩
    · have := h.bodyLength b (hsame ▸ hb)
      omega
    · rw [hn] at hb
      cases hb
      have hvalOff : t.valOff = 2 := by
        rw [Token.valOff, hnine]
        rfl
      omega

/-- What holds when the loop has read the fields `ts`: the tape is a draft of them. -/
structure Reading (d : Dictionary) (framing : Framing) (delim : UInt8) (places : Option (List Nat))
    (buf : Bytes) (ts : List Token) (z : Draft) (s : Parser.Progress) (last : Bool) : Prop where
  split : ∃ post, buf = textsWith delim ts ++ post
  pos : s.pos = (texts ts).length
  valid : ∀ t ∈ ts, t.Valid
  drafted : Drafted d framing (Named ts) z s.parser
  size : s.parser.msg.tape.length + z.room ≤ 2 * ts.length + headerGap
  paired : d.Compiled → d.KeepsData → ∃ spot, PairedDraft (Stated ts) spot (s.pending.map Prod.snd) z ∧
    ∀ x ∈ s.pending, Awaits s.parser spot x.1
  noted : Noted places ts s.parser last

section

variable {d : Dictionary} {framing : Framing} {delim : UInt8} {places : Option (List Nat)}
variable {buf : Bytes} {ts : List Token} {z : Draft} {s : Parser.Progress} {last : Bool}

theorem Reading.pos_le (h : Reading d framing delim places buf ts z s last) :
    s.pos ≤ buf.length := by
  obtain ⟨post, rfl⟩ := h.split
  rw [h.pos, List.length_append, length_textsWith]
  omega

/-- A field takes at least four bytes, so there is room on the tape for what it needs. -/
theorem Reading.tape_le (h : Reading d framing delim places buf ts z s last)
    (hbuf : buf.length ≤ 2 ^ 32) : s.parser.msg.tape.length ≤ 2 ^ 31 + headerGap := by
  have hts := length_texts_le h.valid
  have hpos := h.pos_le
  have hsize := h.size
  rw [h.pos] at hpos
  omega

theorem reading_start (d : Dictionary) (framing : Framing) (delim : UInt8)
    (places : Option (List Nat)) (buf : Bytes) :
    Reading d framing delim places buf [] ⟨.header, .nil, 0, .nil, .nil, []⟩
      ⟨(Parser.new d framing).marking places, 0, none⟩ false where
  split := ⟨buf, rfl⟩
  pos := rfl
  valid := by simp
  drafted := ⟨rfl, rfl, rfl, rfl, rfl, ⟨fun _ => ⟨rfl, rfl⟩, fun _ => rfl⟩, rfl, rfl, .nil, .nil, .nil,
    .nil, .nil, by simp [Parser.marking, Parser.new]⟩
  size := Nat.le_refl _
  paired := fun _ _ => ⟨.header, ⟨fun r => by cases r <;> simp [Draft.part, Paired], trivial⟩, by simp⟩
  noted := ⟨by cases places <;> simp [Parser.marking, stops], rfl, by simp [Parser.marking, Parser.new],
    by simp [Parser.marking, Parser.new]⟩

/-- A field is read: the tape is a draft of one field more. -/
theorem Reading.next (hbuf : buf.length ≤ 2 ^ 32)
    (h : Reading d framing delim places buf ts z s false) {x}
    (hlex : lexField s.parser.msg.dict buf delim s.pos s.pending = .ok x)
    (htake : s.parser.take buf s.pos x = .ok (p, isLast)) :
    ∃ t z', Reading d framing delim places buf (ts ++ [t]) z' ⟨p, x.valEnd + 1, x.pending⟩ isLast := by
  have hroom : s.parser.msg.tape.length + headerGap + 2 < 2 ^ 32 := by
    have := h.tape_le hbuf
    simp only [headerGap] at this ⊢
    omega
  obtain ⟨post, rfl⟩ := h.split
  have hpos : s.pos = (textsWith delim ts).length := by rw [h.pos, length_textsWith]
  rw [hpos] at hlex htake
  rw [h.drafted.dict] at hlex
  obtain ⟨t, rest, pending', rfl, hvalid, hfollows, rfl⟩ := lexField_found hlex
  rw [take_found] at htake
  obtain ⟨⟨p₁, isLast'⟩, hrules, htake⟩ := bind_eq_ok htake
  obtain ⟨p₂, hpush, htake⟩ := bind_eq_ok htake
  cases htake
  have hruled := Parser.framingRules_ruled hrules
  have hnotes := congrArg Parser.Aside.toNotes (Parser.push_aside hpush)
  rw [← hpos, h.pos] at hpush hruled
  have hdrafted₁ := (hruled.drafted h.drafted).mono fun e => Named.append [t]
  have htape : p₁.msg.tape = s.parser.msg.tape := by rw [hruled.same]
  have hvalue : t.value.length < 2 ^ 32 := by
    simp at hbuf
    omega
  have hlast (depth : Nat) := names_last ts t depth
  obtain ⟨z', hdrafted', hsize', hpaired'⟩ : ∃ z',
      Drafted d framing (Named (ts ++ [t])) z' p₂ ∧
      p₂.msg.tape.length + z'.room ≤ p₁.msg.tape.length + z.room + 2 ∧
      (d.Compiled → d.KeepsData → ∃ spot,
        PairedDraft (Stated (ts ++ [t])) spot (pending'.map Prod.snd) z' ∧
          ∀ x ∈ pending', Awaits p₂ spot x.1) := by
    by_cases hk : d.Compiled ∧ d.KeepsData
    · obtain ⟨spot, hpaired, hawaits⟩ := h.paired hk.1 hk.2
      obtain ⟨z', spot', hz', hsize', hpaired', hawaits'⟩ := hdrafted₁.push_paired hk.1 hk.2
        (by rw [htape]; omega) (hpaired.mono fun e n => Stated.append [t])
        (fun x hx => (hawaits x hx).ruled hruled) hvalid hfollows hvalue
        (fun depth => ⟨t, hlast depth⟩) (fun depth n hn => ⟨t, hlast depth, hn⟩) hpush
      exact ⟨z', hz', hsize', fun _ _ => ⟨spot', hpaired', hawaits'⟩⟩
    · obtain ⟨-, -, z', -, -, -, -, -, -, hz', hsize'⟩ := hdrafted₁.push (by rw [htape]; omega)
        (hfollows.isField.isField_fieldEntry _ _) (fun depth => ⟨t, hlast depth⟩) hpush
      exact ⟨z', hz', hsize', fun hd hdata => absurd ⟨hd, hdata⟩ hk⟩
  have hend : (textsWith delim ts).length + t.valOff + t.value.length + 1 =
      (texts (ts ++ [t])).length := by
    simp
    omega
  have hnoted := h.noted.next hruled hnotes
  rw [← h.pos, hpos] at hnoted
  refine ⟨t, z', ⟨rest, by simp⟩, hend, ?_, hdrafted'.marking _, ?_, ?_, hnoted⟩
  · intro u hu
    rcases List.mem_append.mp hu with hu | hu
    · exact h.valid u hu
    · rwa [List.mem_singleton.mp hu]
  · have hsize := h.size
    rw [htape] at hsize'
    simp only [List.length_append, List.length_singleton, Parser.msg_marking]
    omega
  · intro hd hdata
    obtain ⟨spot, hpaired, hawaits⟩ := hpaired' hd hdata
    exact ⟨spot, hpaired, fun x hx => ⟨(hawaits x hx).inside, (hawaits x hx).top⟩⟩

theorem Reading.of_runs (hbuf : buf.length ≤ 2 ^ 32)
    (h : Parser.Runs buf delim ⟨(Parser.new d framing).marking places, 0, none⟩ s last) :
    ∃ ts z, Reading d framing delim places buf ts z s last := by
  induction h with
  | start => exact ⟨_, _, reading_start d framing delim places buf⟩
  | next _ _ hlex htake ih =>
    obtain ⟨ts, z, hreading⟩ := ih
    obtain ⟨t, z', hreading'⟩ := hreading.next hbuf hlex htake
    exact ⟨_, z', hreading'⟩

end

end Babelfix.Tape
