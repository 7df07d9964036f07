import Babelfix.Tape.Drafting

/-! # Lengths and data while a message is read

A Length field and its data field end up next to each other, if the dictionary has both
in the same groups and sections and no instance starts with the data: nothing is closed,
started or left between the two. -/
namespace Babelfix.Tape

open Lib

/-! ## The dictionary -/

/-- What compiling a dictionary guarantees: the tables only name groups and messages
that there are, and a group with members starts with one of them. -/
structure Dictionary.Compiled (d : Dictionary) : Prop where
  top : ∀ {msg : Option MsgIdx} {header : Bool} {tag g : Nat},
    d.topLevelGroup msg header tag = some g → g < d.groups.length
  nested : ∀ {outer tag g : Nat}, d.nestedGroup outer tag = some g → g < d.groups.length
  message : ∀ {msgType : Bytes} {m : Nat}, d.message msgType = some m → m < d.messages.length
  delimiter : ∀ {g : Nat}, g < d.groups.length → (d.group g).delimiter ≠ 0 →
    ((d.group g).members.get (d.group g).delimiter).isSome

/-- A Length and its data are members of the same groups and belong to the same
sections, and no data starts an instance. -/
structure Dictionary.KeepsData (d : Dictionary) : Prop where
  members : ∀ {length data g : Nat}, d.kind length = .dataLength data → g < d.groups.length →
    ((d.group g).members.get length).isSome = ((d.group g).members.get data).isSome
  delimiter : ∀ {length data g : Nat}, d.kind length = .dataLength data → g < d.groups.length →
    data ≠ (d.group g).delimiter
  header : ∀ {length data : Nat}, d.kind length = .dataLength data →
    d.isHeader data = d.isHeader length
  trailer : ∀ {length data : Nat}, d.kind length = .dataLength data →
    d.isTrailer data = d.isTrailer length

variable {d : Dictionary}

theorem Dictionary.Chain.lt (hd : d.Compiled) {gs} (h : d.Chain gs) :
    ∀ g ∈ gs, g < d.groups.length := by
  induction h with
  | nil => simp
  | top h =>
    intro g hg
    rw [List.mem_singleton.mp hg]
    exact hd.top h
  | nested h _ ih =>
    intro g hg
    rcases List.mem_cons.mp hg with rfl | hg
    · exact hd.nested h
    · exact ih g hg

/-! ## Drafts -/

/-- Lengths are followed by their data in the open groups. The innermost open instance's
last entry announces `pending`. -/
def PairedOpen (L : Entry → Nat → Prop) : Option Nat → List Opened → Prop
  | _, [] => True
  | pending, o :: outer =>
    Paired L none o.done none ∧
      (∀ e c, o.inst = some (e, c) → Paired L none c pending) ∧
      (o.inst = none → pending = none) ∧ PairedOpen L none outer

def Draft.part (z : Draft) : Region → Forest Entry
  | .header => z.header
  | .body => z.body
  | .trailer => z.trailer

/-- Lengths are followed by their data in a draft. At the top level, `spot` is the
section whose last entry announces `pending`. -/
structure PairedDraft (L : Entry → Nat → Prop) (spot : Region) (pending : Option Nat) (z : Draft) :
    Prop where
  parts : ∀ r, Paired L none (z.part r) (if z.opened = [] ∧ spot = r then pending else none)
  opened : PairedOpen L pending z.opened

namespace PairedDraft

variable {L : Entry → Nat → Prop} {spot spot' : Region} {pending pending' : Option Nat} {z : Draft}

/-- With nothing announced it does not matter where the last field went. -/
theorem of_none (h : PairedDraft L spot none z) (spot' : Region) : PairedDraft L spot' none z where
  parts r := by simpa using h.parts r
  opened := h.opened

theorem reopened (h : PairedDraft L spot none z) {z' : Draft} (hpart : z'.part = z.part)
    (hopened : PairedOpen L none z'.opened) : PairedDraft L spot none z' :=
  ⟨fun r => by simpa [hpart] using h.parts r, hopened⟩

/-- What is announced is announced where the next field goes. -/
theorem of_spot (h : PairedDraft L spot pending z) (hspot : pending ≠ none → spot = spot') :
    PairedDraft L spot' pending z := by
  by_cases hp : pending = none
  · subst hp
    exact h.of_none spot'
  · rw [← hspot hp]
    exact h

section
variable (h : PairedDraft L spot pending z)
include h

theorem of_opened (hne : z.opened ≠ []) (spot' : Region) : PairedDraft L spot' pending z where
  parts r := by simpa [hne] using h.parts r
  opened := h.opened

theorem add (hinst : ∀ o ∈ z.opened.head?, o.inst ≠ none)
    (hspot : z.opened = [] → pending ≠ none → spot = z.region) {f}
    (hf : Paired L pending f pending') : PairedDraft L z.region pending' (z.add f) := by
  obtain ⟨region, header, gap, body, trailer, opened⟩ := z
  cases opened with
  | cons o outer =>
    obtain ⟨hparts, hdone, hcurrent, hfresh, houter⟩ := h
    have ho : o.inst ≠ none := hinst o rfl
    refine ⟨fun r => hparts r, hdone, ?_, ?_, houter⟩
    · intro e c hi
      obtain ⟨i, hsome, heq⟩ := Option.map_eq_some_iff.mp hi
      cases heq
      exact (hcurrent i.1 i.2 hsome).append hf
    · intro hi
      exact absurd (Option.map_eq_none_iff.mp hi) ho
  | nil =>
    have hparts := (h.of_spot (hspot rfl)).parts
    refine ⟨fun r => ?_, by cases region <;> trivial⟩
    by_cases hr : region = r
    · subst hr
      have hpart := hparts region
      cases region <;> simpa [Draft.add, Draft.part] using hpart.append hf
    · have hpart := hparts r
      cases region <;> cases r <;> simp_all [Draft.add, Draft.part]

theorem late (hnil : z.opened = []) (hspot : pending ≠ none → spot = .header) {e}
    (he : Paired L pending (.leaf e) pending') : PairedDraft L .header pending' (z.late e) := by
  have hparts := (h.of_spot hspot).parts
  simp only [hnil, true_and] at hparts
  refine ⟨fun r => ?_, ?_⟩
  · cases r with
    | header => simpa [Draft.late, Draft.part, hnil] using (hparts .header).append he
    | body => simpa [Draft.late, Draft.part] using hparts .body
    | trailer => simpa [Draft.late, Draft.part] using hparts .trailer
  · rw [show (z.late e).opened = [] from hnil]
    trivial

theorem enter (r : Region) :
    PairedDraft L spot pending (z.enter r) := ⟨fun r => h.parts r, h.opened⟩

end

end PairedDraft

section

variable {L L' : Entry → Nat → Prop} (hL : ∀ e n, L e n → L' e n)
include hL

theorem PairedOpen.mono {pending opened} (h : PairedOpen L pending opened) :
    PairedOpen L' pending opened := by
  induction opened generalizing pending with
  | nil => trivial
  | cons o outer ih =>
    obtain ⟨hdone, hcurrent, hfresh, houter⟩ := h
    exact ⟨hdone.mono fun e _ => hL e, fun e c hi => (hcurrent e c hi).mono fun e _ => hL e, hfresh,
      ih houter⟩

theorem PairedDraft.mono {spot pending z} (h : PairedDraft L spot pending z) :
    PairedDraft L' spot pending z where
  parts r := (h.parts r).mono fun e _ => hL e
  opened := h.opened.mono hL

end

/-! ### Finishing groups -/

structure Opened.Sane (o : Opened) : Prop where
  group : o.entry.kind = .group
  inst : ∀ e c, o.inst = some (e, c) → e.kind = .inst

/-- Groups and instances are what they should be, and all groups but the innermost have an
open instance. -/
structure Draft.Sane (z : Draft) : Prop where
  opened : ∀ o ∈ z.opened, o.Sane
  outer : ∀ o ∈ z.opened.tail, o.inst ≠ none

variable {p : Parser}

theorem Drafted.sane {framing P z} (h : Drafted d framing P z p) : z.Sane := by
  have hframes := h.frames
  obtain ⟨region, header, gap, body, trailer, opened⟩ := z
  suffices hall : (∀ o ∈ opened, o.Sane) ∧ ∀ o ∈ opened.tail, o.inst ≠ none from ⟨hall.1, hall.2⟩
  simp only at hframes
  generalize p.stack = stack at hframes
  clear h
  induction hframes with
  | nil => simp
  | @cons o outer frame stack htidy hframe hinner _ ih =>
    obtain ⟨hsane, houter⟩ := ih
    refine ⟨List.forall_mem_cons.mpr
      ⟨⟨htidy.entry_kind, fun e c hi => (htidy.inst e c hi).1⟩, hsane⟩, ?_⟩
    cases outer with
    | nil => simp
    | cons o' outer => exact List.forall_mem_cons.mpr ⟨hinner o' rfl, houter⟩

variable {depth : Nat}

section

variable {L : Entry → Nat → Prop} {spot : Region} {z z' : Draft}

theorem Draft.Sane.add (h : z.Sane) (f : Forest Entry) : (z.add f).Sane := by
  obtain ⟨region, header, gap, body, trailer, opened⟩ := z
  cases opened with
  | nil => cases region <;> exact ⟨by simp [Draft.add], by simp [Draft.add]⟩
  | cons o outer =>
    obtain ⟨ho, hopened⟩ := List.forall_mem_cons.mp h.opened
    refine ⟨List.forall_mem_cons.mpr ⟨⟨ho.group, ?_⟩, hopened⟩, h.outer⟩
    intro e c hi
    obtain ⟨i, hsome, heq⟩ := Option.map_eq_some_iff.mp hi
    cases heq
    exact ho.inst i.1 i.2 hsome

theorem Draft.Sane.close (h : z.Sane) : z.close.Sane := by
  obtain ⟨region, header, gap, body, trailer, opened⟩ := z
  cases opened with
  | nil => exact h
  | cons o outer =>
    exact Draft.Sane.add ⟨(List.forall_mem_cons.mp h.opened).2,
      fun x hx => h.outer x (List.mem_of_mem_tail hx)⟩ o.tree

theorem PairedOpen.closed {o outer} (hsane : o.Sane)
    (h : PairedOpen L none (o :: outer)) : Paired L none o.closed none := by
  obtain ⟨hdone, hcurrent, -⟩ := h
  unfold Opened.closed
  split
  · exact hdone
  · rename_i e c hi
    refine hdone.append ⟨hcurrent e c hi, ?_⟩
    rw [hsane.inst e c hi]
    exact ⟨rfl, rfl⟩

theorem PairedDraft.close (h : PairedDraft L spot none z) (hsane : z.Sane) :
    PairedDraft L spot none z.close := by
  obtain ⟨region, header, gap, body, trailer, opened⟩ := z
  cases opened with
  | nil => exact h
  | cons o outer =>
    have hopened := h.opened
    have ho := hsane.opened o List.mem_cons_self
    have htree : Paired L none o.tree none := by
      refine ⟨hopened.closed ho, ?_⟩
      rw [show Entry.kind _ = .group from ho.group]
      exact ⟨rfl, rfl⟩
    have hpop : PairedDraft L spot none ⟨region, header, gap, body, trailer, outer⟩ :=
      h.reopened rfl hopened.2.2.2
    have hinst : ∀ o' ∈ outer.head?, o'.inst ≠ none := fun o' ho' =>
      hsane.outer o' (List.mem_of_mem_head? ho')
    exact (hpop.add hinst (fun _ hp => absurd rfl hp) htree).of_none spot

theorem PairedDraft.start (h : PairedDraft L spot none z) (hsane : z.Sane) :
    PairedDraft L spot none z.start := by
  obtain ⟨region, header, gap, body, trailer, opened⟩ := z
  cases opened with
  | nil => exact h
  | cons o outer =>
    have hopened := h.opened
    refine h.reopened rfl ⟨hopened.closed (hsane.opened o List.mem_cons_self), ?_,
      by simp [Opened.next], hopened.2.2.2⟩
    intro e c hi
    cases hi
    rfl

theorem PairedDraft.joins (hjoins : Draft.Joins z z') (h : PairedDraft L spot none z)
    (hsane : z.Sane) : PairedDraft L spot none z' := by
  induction hjoins with
  | stay => exact h
  | start => exact h.start hsane
  | close _ ih => exact ih (h.close hsane) hsane.close

/-! ### Placing a field -/

/-- A field that takes what was announced to `pending` and announces `pending'`. Only
Lengths announce, and only data is announced. -/
structure Announces (L : Entry → Nat → Prop) (entry : Entry) (pending pending' : Option Nat) : Prop
    where
  leaf : ∀ depth, Paired L pending (.leaf { entry with depth }) pending'
  field : entry.kind = .field → pending = none ∧ pending' = none

variable {pending pending' : Option Nat} {entry : Entry}

theorem PairedDraft.places (hplaces : Draft.Places z entry depth z') (h : PairedDraft L spot pending z)
    (hinst : ∀ o ∈ z.opened.head?, o.inst ≠ none) (hspot : z.opened = [] → pending ≠ none → spot = z.region)
    (hentry : Announces L entry pending pending') : PairedDraft L z.region pending' z' := by
  cases hplaces with
  | field => exact h.add hinst hspot (hentry.leaf depth)
  | empty hkind =>
    obtain ⟨rfl, rfl⟩ := hentry.field hkind
    exact h.add hinst hspot ⟨rfl, rfl, rfl⟩
  | opens hkind =>
    obtain ⟨rfl, rfl⟩ := hentry.field hkind
    exact (h.of_none z.region).reopened rfl ⟨rfl, by simp, by simp, h.opened⟩

theorem Draft.Places.opened_ne_nil (h : Draft.Places z entry depth z') (hne : z.opened ≠ []) :
    z'.opened ≠ [] := by
  have hlen : z.opened.length ≠ 0 := fun h => hne (List.length_eq_zero_iff.mp h)
  cases h with
  | field | empty =>
    intro hnil
    rw [← List.length_eq_zero_iff, (Draft.add_keeps _).2.2.2] at hnil
    exact hlen hnil
  | opens => simp [Draft.opens]

/-- Where the last field went, if no group is open. -/
def spotOf (p : Parser) (tag : Nat) (z : Draft) : Region :=
  if p.isLateHeader tag then .header else z.region

/-- Placing a field keeps Lengths and data together, if data goes where its Length
went. -/
theorem PairedDraft.settles (hsettles : Draft.Settles p z entry z') (h : PairedDraft L spot pending z)
    (hinst : ∀ o ∈ z.opened.head?, o.inst ≠ none) (hspot : z.opened = [] → pending ≠ none →
      spot = spotOf p entry.tag z ∧
        (¬ p.isLateHeader entry.tag → p.enterRegion entry.tag = .ok p ∧ p.region = z.region))
    (hentry : Announces L entry pending pending') :
    PairedDraft L (spotOf p entry.tag z') pending' z' := by
  cases hsettles with
  | inside hne hplaces =>
    exact (h.places hplaces hinst (fun hnil => absurd hnil hne) hentry).of_opened
      (hplaces.opened_ne_nil hne) _
  | late hnil hlate =>
    rw [spotOf, if_pos hlate]
    refine h.late hnil (fun hp => ?_) (hentry.leaf 0)
    rw [(hspot hnil hp).1, spotOf, if_pos hlate]
  | @top _ p' hnil hlate henter hplaces =>
    rw [spotOf, if_neg hlate, Draft.places_region hplaces]
    refine (h.enter p'.region).places hplaces (by simp [Draft.enter, hnil]) (fun _ hp => ?_) hentry
    obtain ⟨hs, hstay⟩ := hspot hnil hp
    obtain ⟨hsame, hregion⟩ := hstay hlate
    rw [henter] at hsame
    cases hsame
    rw [hs, spotOf, if_neg hlate, ← hregion]
    rfl

end

/-! ## Where data is awaited -/

def Stays (d : Dictionary) (tag : Nat) : Region → Prop
  | .header => d.isHeader tag
  | .body => ¬ d.isHeader tag ∧ ¬ d.isTrailer tag
  | .trailer => d.isTrailer tag

/-- The parser stands where `data` goes right after its Length, which went to `spot`. -/
structure Awaits (p : Parser) (spot : Region) (data : Nat) : Prop where
  inside : ∀ frame ∈ p.stack.head?, frame.inst.isSome ∧
    data ≠ (p.msg.dict.group frame.group).delimiter ∧
    ((p.msg.dict.group frame.group).members.get data).isSome
  top : p.stack = [] → spot = (if p.isLateHeader data then .header else p.region) ∧
    (¬ p.isLateHeader data → Stays p.msg.dict data p.region)

variable {value : Bytes}

/-- Awaited data closes no group and starts no instance. -/
theorem Awaits.push_eq {spot} (entry : Entry) (h : Awaits p spot entry.tag) :
    p.push entry value = p.settle entry value := by
  have hjoin : Parser.joinGroup entry.tag p.stack p = .ok p := by
    cases hstack : p.stack with
    | nil => rfl
    | cons frame stack =>
      obtain ⟨hinst, hdelim, hmember⟩ := h.inside frame (by simp [hstack])
      have hsome : frame.inst.isNone = false := by
        rw [← Option.not_isSome, hinst]
        rfl
      rw [Parser.joinGroup]
      rw [if_neg hdelim, if_pos hmember, hsome]
      rfl
  rw [Parser.push, hjoin]
  rfl

variable {tag : Nat}

theorem Stays.enterRegion (h : Stays p.msg.dict tag p.region) :
    p.enterRegion tag = .ok p := by
  unfold Parser.enterRegion
  cases hr : p.region with
  | header | trailer =>
    rw [hr] at h
    exact if_pos h
  | body =>
    rw [hr] at h
    dsimp only
    rw [if_neg h.1, if_neg h.2]

variable {p' : Parser}

theorem enterRegion_ok (h : p.enterRegion tag = .ok p') :
    Stays p.msg.dict tag p'.region ∧ p'.stack = p.stack ∧ p'.msg.dict = p.msg.dict ∧
      p'.framing = p.framing := by
  unfold Parser.enterRegion at h
  dsimp only at h
  split at h <;> rename_i hr <;> split at h <;> rename_i hh
  · cases h
    exact ⟨by rwa [hr], rfl, rfl, rfl⟩
  · split at h <;> rename_i ht <;> cases h
    · exact ⟨ht, rfl, rfl, rfl⟩
    · exact ⟨⟨hh, ht⟩, rfl, rfl, rfl⟩
  · cases h
  · split at h <;> rename_i ht <;> cases h
    · exact ⟨ht, rfl, rfl, rfl⟩
    · exact ⟨by rw [hr]; exact ⟨hh, ht⟩, rfl, rfl, rfl⟩
  · cases h
    exact ⟨by rwa [hr], rfl, rfl, rfl⟩
  · cases h

/-- Which section a tag stays in depends on which sections have it. -/
theorem Stays.congr {tag' region} (h : Stays d tag region)
    (hheader : d.isHeader tag' = d.isHeader tag) (htrailer : d.isTrailer tag' = d.isTrailer tag) :
    Stays d tag' region := by
  cases region with
  | header => rwa [Stays, hheader]
  | body =>
    rw [Stays, hheader, htrailer]
    exact h
  | trailer => rwa [Stays, htrailer]

theorem enterRegion_header (h : p.enterRegion tag = .ok p') (hregion : p.region = .header)
    (hheader : p.msg.dict.isHeader tag) : p'.region = .header := by
  unfold Parser.enterRegion at h
  simp only [hregion, hheader, if_true] at h
  cases h
  exact hregion

theorem pushLateHeader_frame (p : Parser) (entry : Entry) :
    (p.pushLateHeader entry).stack = p.stack ∧ (p.pushLateHeader entry).msg.dict = p.msg.dict ∧
      (p.pushLateHeader entry).framing = p.framing ∧ (p.pushLateHeader entry).region = p.region := by
  unfold Parser.pushLateHeader
  split <;> exact ⟨rfl, rfl, rfl, rfl⟩

/-- A field that counts no group is put on the tape as it is. -/
theorem place_of_kind {entry} (hkind : entry.kind ≠ .field) : p.place entry value depth =
      .ok { p with msg := { p.msg with tape := p.msg.tape ++ [{ entry with depth }] } } := by
  rw [Parser.place, if_neg hkind]

theorem awaits_of_settle (hd : d.Compiled) (hdata : d.KeepsData) {entry data}
    (hdict : p.msg.dict = d) (hchain : ∀ frame ∈ p.stack, frame.group < d.groups.length)
    (hframe : ∀ frame ∈ p.stack.head?, frame.inst.isSome ∧ Belongs d frame.group entry.tag)
    (htag : 0 < entry.tag) (hkind : entry.kind ≠ .field)
    (hlength : d.kind entry.tag = .dataLength data) (h : p.settle entry value = .ok p') :
    Awaits p' (if p.isLateHeader entry.tag then .header else p'.region) data := by
  unfold Parser.settle at h
  split at h
  · rename_i frame stack hstack
    obtain ⟨depth, -, h⟩ := bind_eq_ok h
    rw [place_of_kind hkind] at h
    cases h
    refine ⟨fun f hf => ?_, fun hnil => ?_⟩
    · rw [hstack] at hf
      cases hf
      have hlt := hchain frame (by simp [hstack])
      obtain ⟨hinst, hbelongs⟩ := hframe frame (by simp [hstack])
      refine ⟨hinst, ?_, ?_⟩
      · rw [hdict]
        exact hdata.delimiter hlength hlt
      · rw [hdict, ← hdata.members hlength hlt]
        rcases hbelongs with hdelim | hmember
        · rw [hdelim] at htag ⊢
          exact hd.delimiter hlt (by omega)
        · exact hmember
    · rw [hstack] at hnil
      cases hnil
  · rename_i hstack
    split at h
    · rename_i hlate
      rw [if_neg (fun h => hkind h.1)] at h
      cases h
      obtain ⟨hs, hd', hf, hr⟩ := pushLateHeader_frame p entry
      have hlate' : (p.pushLateHeader entry).isLateHeader data := by
        simp only [Parser.isLateHeader, hd', hf, hr, hdict, hdata.header hlength] at hlate ⊢
        exact hlate
      refine ⟨fun f hf => ?_, fun _ => ⟨?_, fun hn => absurd hlate' hn⟩⟩
      · rw [hs, hstack] at hf
        cases hf
      · rw [if_pos hlate, if_pos hlate']
    · rename_i hlate
      obtain ⟨p₁, henter, h⟩ := bind_eq_ok h
      rw [place_of_kind hkind] at h
      cases h
      obtain ⟨hstays, hs, hd', hf⟩ := enterRegion_ok henter
      have hnot : ¬ p₁.isLateHeader data := by
        intro hlate'
        simp only [Parser.isLateHeader, hd', hf, hdict, hdata.header hlength,
          decide_eq_true_eq] at hlate hlate'
        obtain ⟨hfragment, hregion, hheader⟩ := hlate'
        have hp : p.region = .header := by
          by_contra hne
          exact hlate ⟨hfragment, hne, hheader⟩
        exact hregion (enterRegion_header henter hp (by rw [hdict]; exact hheader))
      refine ⟨fun f hf => ?_, fun _ => ⟨?_, fun _ => ?_⟩⟩
      · rw [show (Parser.stack _) = p.stack from hs, hstack] at hf
        cases hf
      · rw [if_neg hlate]
        exact (if_neg hnot).symm
      · rw [hdict] at hstays
        rw [show (Message.dict _) = d from hd'.trans hdict]
        exact hstays.congr (hdata.header hlength) (hdata.trailer hlength)

end Babelfix.Tape
