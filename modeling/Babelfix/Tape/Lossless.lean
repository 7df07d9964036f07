import Babelfix.Tape.Reread

/-! # Losslessness

What is written from the tape of an accepted message is what was read, byte for byte, if
the numbers that are written afresh were written the way this program writes them. -/
namespace Babelfix.Tape

open Lib

/-! ## Framing fields -/

def framingTags : List Nat := [8, 9, 35, 10]

variable {d : Dictionary}

theorem fields_below (hd : d.Standard) (f : Forest Token) :
    (∀ {group depth first}, Formed d (.inst group) depth first f →
      ∀ t ∈ fields f, t.tag ∉ framingTags) ∧
    (∀ {group depth}, FormedInstances d group depth f → ∀ t ∈ fields f, t.tag ∉ framingTags) := by
  induction f with
  | nil => simp
  | node t c r ihc ihr =>
    constructor
    · intro group depth first hformed u hu
      obtain ⟨htakes, hr, hnode⟩ := hformed
      have hbelongs : Belongs d group t.tag := by
        cases first with
        | true => exact .inl htakes
        | false => exact .inr htakes.2
      simp only [fields_node, List.mem_append] at hu
      rcases hu with hu | hu | hu
      · have htag : u.tag = t.tag := by
          unfold Token.own at hu
          split at hu
          · cases hu
          · rw [List.mem_singleton.mp hu, Token.tag_asField]
        intro hmem
        rw [htag] at hmem
        exact hd.not_belongs hmem group hbelongs
      · split at hnode
        · exact ihc.2 hnode.2.2.2 u hu
        · rw [hnode.2] at hu
          cases hu
        · rw [hnode] at hu
          cases hu
        · rw [hnode] at hu
          cases hu
        · exact hnode.elim
      · exact ihr.1 hr u hu
    · rintro group depth ⟨rfl, -, hc, hr⟩ u hu
      simp only [fields_node, List.mem_append] at hu
      rcases hu with hu | hu | hu
      · cases hu
      · exact ihc.1 hc u hu
      · exact ihr.2 hr u hu

/-- Leaving out the framing fields of the top level leaves out all of them. -/
theorem fields_strip (hd : d.Standard) {msgDef header depth first f}
    (h : Formed d (.top msgDef header) depth first f) :
    fields (strip f) = (fields f).filter fun t => t.tag ∉ framingTags := by
  induction f generalizing first with
  | nil => rfl
  | node t c r _ ihr =>
    have hr := ihr h.2.1
    rw [strip, fields_node, List.filter_append, List.filter_append]
    by_cases htag : t.tag ∈ framingTags
    · obtain ⟨hfield, rfl, -⟩ := h.leaf_of_opens (hd.opens htag _)
      have hframing : t.IsFraming := by
        rw [hfield.isFraming_iff]
        simp only [framingTags, List.mem_cons, List.not_mem_nil, or_false] at htag
        tauto
      rw [if_pos hframing, hr, hfield.own_eq]
      simp [htag]
    · have hframing : ¬ t.IsFraming := by
        rintro ⟨-, h⟩
        apply htag
        simp only [framingTags, List.mem_cons, List.not_mem_nil, or_false]
        tauto
      have hown : t.own.filter (fun t => t.tag ∉ framingTags) = t.own := by
        unfold Token.own
        split <;> simp [htag]
      have hbelow : (fields c).filter (fun t => t.tag ∉ framingTags) = fields c := by
        rw [List.filter_eq_self]
        intro u hu
        have hnode := h.2.2
        split at hnode
        · simpa using (fields_below hd c).2 hnode.2.2.2 u hu
        · rw [hnode.2] at hu
          cases hu
        · rw [hnode] at hu
          cases hu
        · rw [hnode] at hu
          cases hu
        · exact hnode.elim
      rw [if_neg hframing, fields_node, hr, hown, hbelow]

/-! ## Numbers that are written afresh -/

/-- A numeral without leading zeros: no digit follows a zero at its start. -/
def NoLeadingZero (v : Bytes) : Prop := v.head? = some 48 → v = [48]

instance (v : Bytes) : Decidable (NoLeadingZero v) := inferInstanceAs (Decidable (_ → _))

theorem head_ne_of_noLeadingZero {v} (h : NoLeadingZero v) (hzero : parseUint v ≠ .ok 0) :
    v.head? ≠ some 48 := by
  intro hhead
  rw [h hhead] at hzero
  exact hzero (by decide +kernel)

/-- With every group's number written as it is read, and no group without instances,
nothing is left out. -/
theorem prune_eq_self (f : Forest Token) (hnum : ∀ t ∈ f.preorder, t.kind = .group → t.value.head? ≠ some 48) :
    (∀ {b depth first}, Formed d b depth first f → prune f = f) ∧
    (∀ {group depth}, FormedInstances d group depth f → prune f = f) := by
  induction f with
  | nil => exact ⟨fun _ => rfl, fun _ => rfl⟩
  | node t c r ihc ihr =>
    obtain ⟨-, hcs⟩ := ihc fun u hu => hnum u (by simp [hu])
    obtain ⟨hc, -⟩ := ihc fun u hu => hnum u (by simp [hu])
    obtain ⟨hr, hrs⟩ := ihr fun u hu => hnum u (by simp [hu])
    constructor
    · intro b depth first hformed
      have hrest := hr hformed.2.1
      by_cases hgroup : t.kind = .group
      · have hnode := hformed.2.2
        rw [hgroup] at hnode
        obtain ⟨-, hvalue, -, hinsts⟩ := hnode
        have hhead := hnum t (by simp) hgroup
        have hwritten := writeUint_of_parseUint hvalue hhead
        have hne : c ≠ .nil := by
          rintro rfl
          rw [← hwritten] at hhead
          exact hhead (by decide +kernel)
        rw [prune, hgroup]
        dsimp only
        rw [hcs hinsts, if_neg hne, hrest, hwritten]
        obtain ⟨kind, tag, value⟩ := t
        cases hgroup
        rfl
      · have hfield : t.IsField ∧ c = .nil := by
          have hnode := hformed.2.2
          split at hnode
          · contradiction
          · exact ⟨.inl ‹_›, hnode.2⟩
          · exact ⟨.inr (.inl ‹_›), hnode⟩
          · exact ⟨.inr (.inr ‹_›), hnode⟩
          · exact hnode.elim
        rw [hfield.1.prune_node, hrest, hfield.2]
    · rintro group depth ⟨rfl, hne, hformed, hrest⟩
      rw [prune_inst, hc hformed, if_neg hne, hrs hrest]

/-! ## The fields of a byte string -/

/-- The fields from `pos` on, as long as they can be read. -/
def wireFieldsFrom (d : Dictionary) (w : Bytes) : Nat → Nat → Option (Nat × Nat) → List Token
  | 0, _, _ => []
  | fuel + 1, pos, pending =>
    if pos < w.length then
      match lexField d w soh pos pending with
      | .error _ => []
      | .ok x =>
        ⟨x.kind, x.tag, slice w x.valStart (x.valEnd - x.valStart)⟩ ::
          wireFieldsFrom d w fuel (x.valEnd + 1) x.pending
    else []

def wireFields (d : Dictionary) (w : Bytes) : List Token := wireFieldsFrom d w w.length 0 none

/-- The texts of the fields that a message was given groups for: its entries for fields
and groups stand in the order of the fields it was read from. -/
def numInGroups (m : Message) (w : Bytes) : List Bytes :=
  ((wireFields m.dict w).zip ((m.tape.filter Entry.isTagged).map Entry.kind)).filterMap
    fun (t, kind) => if kind = .group then some t.value else none

theorem wireFieldsFrom_texts {fuel ts pending pending'} (h : LexesBy soh d pending ts pending')
    (pre : Bytes) (hfuel : (texts ts).length ≤ fuel) :
    wireFieldsFrom d (pre ++ texts ts) fuel pre.length pending = ts := by
  induction ts generalizing fuel pre pending with
  | nil => cases fuel <;> simp [wireFieldsFrom]
  | cons t ts ih =>
    obtain ⟨hvalid, announced, hfollows, hrest⟩ := h
    have hlex : lexField d (pre ++ (t.text ++ texts ts)) soh pre.length pending =
        .ok (t.found pre.length announced) := lexField_text hvalid hfollows
    have hpos : pre.length + t.valOff + t.value.length + 1 = (pre ++ t.text).length := by
      simp
      omega
    cases fuel with
    | zero => simp at hfuel
    | succ fuel =>
      have htail : wireFieldsFrom d (pre ++ t.text ++ texts ts) fuel (pre ++ t.text).length
          announced = ts := ih hrest (pre ++ t.text) (by simp at hfuel; omega)
      rw [texts_cons, wireFieldsFrom, if_pos (by simp), hlex]
      simp only [Token.found, Nat.add_sub_cancel_left, slice_text, hpos]
      rw [← List.append_assoc, htail]

variable {w : Bytes} {m : Message} {e : Envelope} {s : Sections}

theorem Accepted.wireFields_eq (h : Accepted d w m e s) : wireFields d w = e.tokens := by
  rw [wireFields, h.wire]
  exact wireFieldsFrom_texts h.lexes [] (Nat.le_refl _)

/-- The tokens of a forest that are fields or count groups. -/
def tagged (f : Forest Token) : List Token := f.preorder.filter fun t => t.kind ≠ .inst

theorem fields_eq_map (f : Forest Token) : fields f = (tagged f).map Token.asField := by
  unfold fields tagged
  induction f.preorder with
  | nil => rfl
  | cons t ts ih =>
    rw [List.flatMap_cons, ih]
    by_cases h : t.kind = .inst <;> simp [Token.own, h]

theorem kind_entry (t : Token) (depth pos count size : Nat) :
    (t.entry depth pos count size).kind = t.kind := by
  unfold Token.entry
  split <;> simp_all [Token.fieldEntry]

/-- A laid out forest has an entry for each of its tokens. -/
theorem kinds_flat (depth pos : Nat) (f : Forest Token) (hgap : ∀ t ∈ f.preorder, t.kind ≠ .gap) :
    ((flat depth pos f).filter Entry.isTagged).map Entry.kind = (tagged f).map Token.kind := by
  induction f generalizing depth pos with
  | nil => rfl
  | node t c r ihc ihr =>
    have hc := ihc (t.below depth) (pos + t.wire.length) fun u hu => hgap u (by simp [hu])
    have hr := ihr depth (pos + t.wire.length + (text c).length) fun u hu => hgap u (by simp [hu])
    have hkind := kind_entry t depth pos c.roots.length c.size
    have htagged : (t.entry depth pos c.roots.length c.size).isTagged = decide (t.kind ≠ .inst) := by
      have hne := hgap t (by simp)
      unfold Entry.isTagged
      rw [hkind]
      cases h : t.kind <;> simp_all
    rw [flat_node, tagged, Forest.preorder_node, List.filter_cons, List.filter_cons, htagged]
    simp only [tagged] at hc hr
    split <;> simp [hc, hr, hkind]

theorem kind_ne_gap (f : Forest Token) :
    (∀ {b depth first}, Formed d b depth first f → ∀ t ∈ f.preorder, t.kind ≠ .gap) ∧
    (∀ {group depth}, FormedInstances d group depth f → ∀ t ∈ f.preorder, t.kind ≠ .gap) := by
  induction f with
  | nil => simp
  | node t c r ihc ihr =>
    constructor
    · rintro b depth first ⟨-, hr, hnode⟩ u hu
      simp only [Forest.preorder_node, List.mem_cons, List.mem_append] at hu
      rcases hu with rfl | hu | hu
      · intro h
        rw [h] at hnode
        exact hnode
      · split at hnode
        · exact ihc.2 hnode.2.2.2 u hu
        · simp [hnode.2] at hu
        · simp [hnode] at hu
        · simp [hnode] at hu
        · exact hnode.elim
      · exact ihr.1 hr u hu
    · rintro group depth ⟨rfl, -, hc, hr⟩ u hu
      simp only [Forest.preorder_node, List.mem_cons, List.mem_append] at hu
      rcases hu with rfl | hu | hu
      · simp [Token.inst]
      · exact ihc.1 hc u hu
      · exact ihr.2 hr u hu

def Sections.content (s : Sections) : Forest Token :=
  s.headerPart ++ (s.bodyPart ++ s.trailerPart)

theorem Accepted.mem_numInGroups (h : Accepted d w m e s) {t} (ht : t ∈ s.content.preorder)
    (hgroup : t.kind = .group) : t.value ∈ numInGroups m w := by
  have hgap₀ := (kind_ne_gap s.headerPart).1 h.wellFormed.header_formed
  have hgap₁ := (kind_ne_gap s.bodyPart).1 h.wellFormed.body_formed
  have hgap₂ := (kind_ne_gap s.trailerPart).1 h.wellFormed.trailer_formed
  have hslots : (gapSlots.filter Entry.isTagged) = [] := by decide
  have hkinds : (m.tape.filter Entry.isTagged).map Entry.kind =
      (tagged s.content).map Token.kind := by
    rw [h.message, Sections.message, Sections.close_eq]
    simp only [Sections.tape, Sections.content, tagged, Forest.preorder_append, List.filter_append,
      List.map_append, hslots, List.nil_append]
    simp only [kinds_flat _ _ _ hgap₀, kinds_flat _ _ _ hgap₁, kinds_flat _ _ _ hgap₂, tagged]
  have hdict : m.dict = d := by
    rw [h.message]
    rfl
  have hfields : wireFields m.dict w = (tagged s.content).map Token.asField := by
    rw [hdict, h.wireFields_eq, ← h.fields, Sections.fields_eq, ← fields_eq_map]
    simp [Sections.content]
  rw [numInGroups, hkinds, hfields, List.zip_map', List.mem_filterMap]
  refine ⟨(t.asField, t.kind), List.mem_map.mpr ⟨t, ?_, rfl⟩, ?_⟩
  · simp [tagged, ht, hgroup]
  · simp [hgroup, Token.asField]

/-! ## CheckSum -/

variable {n : Nat}

theorem Token.length_text_sum {t : Token} (htag : t.tag = 10) {n} (hvalue : t.value = sumText n) :
    t.text.length = 7 := by
  have hdigits : digits 10 = 2 := by decide +kernel
  rw [length_text, valOff, htag, hdigits, hvalue]
  rfl

theorem sumText_of_readChecksum {v} (h : readChecksum v = .ok n) : v = sumText n := by
  unfold readChecksum at h
  split at h
  · rename_i a b c
    split at h
    · rename_i hdigits
      simp only [List.all_cons, List.all_nil, Bool.and_true, Bool.and_eq_true,
        decide_eq_true_eq] at hdigits
      obtain ⟨ha, hb, hc⟩ := hdigits
      have hla := IsDigit.toNat_sub_lt ha
      have hlb := IsDigit.toNat_sub_lt hb
      have hlc := IsDigit.toNat_sub_lt hc
      dsimp only at h
      split at h
      · cases h
        rw [sumText]
        rw [show ((a - 48).toNat * 100 + (b - 48).toNat * 10 + (c - 48).toNat) / 100 =
          (a - 48).toNat by omega,
          show ((a - 48).toNat * 100 + (b - 48).toNat * 10 + (c - 48).toNat) / 10 % 10 =
          (b - 48).toNat by omega,
          show ((a - 48).toNat * 100 + (b - 48).toNat * 10 + (c - 48).toNat) % 10 =
          (c - 48).toNat by omega, ← eq_digit, ← eq_digit, ← eq_digit]
      · cases h
    · cases h
  · cases h

/-! ## Byte for byte -/

theorem Envelope.Tagged.filter_tokens (h : e.Tagged) :
    (e.tokens.filter fun t => t.tag ∉ framingTags) = e.content := by
  have hcontent : e.content.filter (fun t => t.tag ∉ framingTags) = e.content := by
    rw [List.filter_eq_self]
    intro t ht
    simpa [framingTags, and_assoc] using h.content_tag t ht
  simp [tokens, head, framingTags, h.begins_tag, h.length_tag, h.msgType_tag, h.sum_tag] at hcontent ⊢
  exact hcontent

/-- The fields that are written between MsgType and CheckSum. -/
theorem Accepted.fields_strip_content (hd : d.Standard) (h : Accepted d w m e s) :
    Tape.fields (strip s.content) = e.content := by
  have hparts : Tape.fields (strip s.content) =
      s.fields.filter fun t => t.tag ∉ framingTags := by
    rw [Sections.content, strip_append, strip_append, fields_append, fields_append,
      fields_strip hd h.wellFormed.header_formed, fields_strip hd h.wellFormed.body_formed,
      fields_strip hd h.wellFormed.trailer_formed, Sections.fields_eq]
    simp
  rw [hparts, h.fields, h.sound.toTagged.filter_tokens]

/-- **Byte for byte.** A message that is written from its tape is written as it was
received, if it is shorter than 4 GiB and its numbers are written without leading zeros. -/
theorem encodeDelimited_parse {d : Dictionary} (hd : d.Standard) {w : Bytes} {m : Message}
    (hparse : Message.parse d w = .ok m) (hlt : w.length < 2 ^ 32)
    (hlength : ∀ t ∈ wireFields d w, t.tag = 9 → NoLeadingZero t.value)
    (hgroups : ∀ v ∈ numInGroups m w, NoLeadingZero v ∧ parseUint v ≠ .ok 0) (out : Bytes) :
    m.encodeDelimited out soh = out ++ w := by
  obtain ⟨e, s, h⟩ := accepted_of_parse hd hparse
  have htag := h.sound.toTagged
  have hfields : ∀ t ∈ e.tokens, t.IsField := h.lexes.isField
  have hmsgType : e.msgType.IsField := hfields _ (by simp [Envelope.tokens, Envelope.head])
  -- nothing is left out
  have hnum : ∀ t ∈ s.content.preorder, t.kind = .group → t.value.head? ≠ some 48 := by
    intro t ht hgroup
    obtain ⟨hlead, hzero⟩ := hgroups _ (h.mem_numInGroups ht hgroup)
    exact head_ne_of_noLeadingZero hlead hzero
  have hprune : prune s.content = s.content := by
    rw [Sections.content, prune_append, prune_append,
      (prune_eq_self _ fun t ht => hnum t (by simp [Sections.content, ht])).1
        h.wellFormed.header_formed,
      (prune_eq_self _ fun t ht => hnum t (by simp [Sections.content, ht])).1
        h.wellFormed.body_formed,
      (prune_eq_self _ fun t ht => hnum t (by simp [Sections.content, ht])).1
        h.wellFormed.trailer_formed]
  have hbody : e.msgType.wire ++ text (strip (prune s.content)) = e.body := by
    rw [hprune, text, h.fields_strip_content hd, hmsgType.wire_eq]
    rfl
  have hdict : m.dict = d := by
    rw [h.message]
    rfl
  rw [(h.has hlt).encode_eq hmsgType (h.find_msgType hd), hdict,
    show s.headerPart ++ (s.bodyPart ++ s.trailerPart) = s.content from rfl, hbody, h.wire]
  -- what is left is the frame
  have hwrite : writeUint e.body.length = e.length.value := by
    have hmem : e.length ∈ wireFields d w := by
      rw [h.wireFields_eq]
      simp [Envelope.tokens, Envelope.head]
    have hzero : parseUint e.length.value ≠ .ok 0 := by
      rw [h.sound.length_value]
      simp [Envelope.body]
    exact writeUint_of_parseUint h.sound.length_value
      (head_ne_of_noLeadingZero (hlength _ hmem htag.length_tag) hzero)
  have hhead : frameHead d e.body ++ e.body = texts e.head := by
    rw [frameHead, hwrite]
    simp [Envelope.head, Envelope.body, Token.text, htag.begins_tag, htag.length_tag,
      h.sound.begins_value]
  rw [frame, hhead, ← sumText_of_readChecksum h.sound.sum_value]
  simp [Envelope.tokens, Token.text, htag.sum_tag]

/-! ### An order with parties and legs -/

def partyGroup : GroupDef := ⟨453, 448, [(448, 0), (447, 1)], []⟩

def legGroup : GroupDef := ⟨555, 600, [(600, 0)], []⟩

/-- One message, D, which has the groups Parties (453) and Legs (555). -/
def orders : Dictionary where
  beginString := ascii "FIX.4.4"
  fields := [(8, ⟨.plain, true, false⟩), (9, ⟨.plain, true, false⟩), (35, ⟨.plain, true, false⟩),
    (10, ⟨.plain, false, true⟩)]
  groups := [partyGroup, legGroup]
  messages := [⟨[(453, 0), (555, 1)]⟩]
  messagesByType := [(ascii "D", 0)]
  headerGroups := []
  globalGroups := [(453, 0), (555, 1)]

theorem orders_standard : orders.Standard := Dictionary.standard_of_isStandard (by decide +kernel)

/-- A text as it is written, with bars for SOH. -/
def wireOf (text : String) : Bytes := (ascii text).map fun c => if c = 124 then soh else c

/-- An order with two parties. -/
def partyOrder : Bytes := wireOf "8=FIX.4.4|9=29|35=D|453=2|448=A|447=D|448=B|10=089|"

/-- The order is written as it was received. -/
theorem encodeDelimited_partyOrder :
    (Message.parse orders partyOrder).toOption.map (fun m => m.encodeDelimited [] soh) =
      some partyOrder := by
  have hread : (Message.parse orders partyOrder).toOption.any (fun m =>
      decide (∀ v ∈ numInGroups m partyOrder, NoLeadingZero v ∧ parseUint v ≠ .ok 0)) = true := by
    decide +kernel
  cases hparse : Message.parse orders partyOrder with
  | error e =>
    rw [hparse] at hread
    cases hread
  | ok m =>
    rw [hparse] at hread
    have hgroups : ∀ v ∈ numInGroups m partyOrder, NoLeadingZero v ∧ parseUint v ≠ .ok 0 := by
      simpa [Except.toOption] using hread
    have hlength : ∀ t ∈ wireFields orders partyOrder, t.tag = 9 → NoLeadingZero t.value := by
      decide +kernel
    have henc := encodeDelimited_parse orders_standard hparse (by decide +kernel) hlength hgroups []
    rw [List.nil_append] at henc
    simp [Except.toOption, henc]

/-! ### A field of 4 GiB -/

/-- An order whose text (58) is `n` bytes long. -/
def textOrder (n : Nat) : Envelope :=
  Envelope.fit ⟨⟨.field, 8, orders.beginString⟩, ⟨.field, 9, []⟩, ⟨.field, 35, ascii "D"⟩,
    [⟨.field, 58, List.replicate n 120⟩], ⟨.field, 10, []⟩⟩

def textOrderSections (n : Nat) : Sections :=
  let e := textOrder n
  .trailer (.node e.begins .nil (.node e.length .nil (.leaf e.msgType)))
    (.leaf ⟨.field, 58, List.replicate n 120⟩) (.leaf e.sum)

def textOrderMessage (n : Nat) : Message :=
  (textOrderSections n).message orders (some 0) (texts (textOrder n).tokens)

theorem length_textOrder_body (n : Nat) : (textOrder n).body.length = n + 9 := by
  have h35 : digits 35 = 2 := by decide +kernel
  have h58 : digits 58 = 2 := by decide +kernel
  simp [textOrder, Envelope.fit, Envelope.measured, Envelope.body, Token.valOff, h35, h58, ascii]
  omega

theorem lexes_of_plain {ts}
    (h : ∀ t ∈ ts, t.Valid ∧ t.kind = .field ∧ d.kind t.tag = .plain ∧ soh ∉ t.value) :
    LexesBy soh d none ts none := by
  induction ts with
  | nil => rfl
  | cons t ts ih =>
    obtain ⟨hvalid, hkind, hplain, hsoh⟩ := h t List.mem_cons_self
    refine ⟨hvalid, none, ?_, ih fun u hu => h u (List.mem_cons_of_mem _ hu)⟩
    obtain ⟨kind, tag, value⟩ := t
    cases hkind
    exact .field (by simp [hplain]) hsoh

theorem soh_notMem_sumText (n : Nat) (h : n < 256) : soh ∉ sumText n := by
  revert h n
  decide +kernel

theorem textOrder_lexes (hpos : 0 < n) : LexesBy soh orders none (textOrder n).tokens none := by
  have hplain : ∀ tag ∈ [8, 9, 35, 58, 10], 0 < tag ∧ tag ≤ u32Max ∧ orders.kind tag = .plain := by
    decide
  have hfield {tag : Nat} {value : Bytes} (htag : tag ∈ [8, 9, 35, 58, 10]) (hne : value ≠ [])
      (hsoh : soh ∉ value) : Token.Valid ⟨.field, tag, value⟩ ∧ Kind.field = .field ∧
        orders.kind tag = .plain ∧ soh ∉ value := by
    obtain ⟨hlt, hle, hkind⟩ := hplain tag htag
    exact ⟨⟨hlt, hle, hne⟩, rfl, hkind, hsoh⟩
  have hsum := soh_notMem_sumText _ (checksumOf_lt (texts (textOrder n).head))
  refine lexes_of_plain ?_
  intro t ht
  simp only [textOrder, Envelope.tokens, Envelope.head, Envelope.fit, Envelope.measured,
    List.cons_append, List.nil_append, List.mem_cons, List.not_mem_nil, or_false] at ht
  rcases ht with rfl | rfl | rfl | rfl | rfl
  · exact hfield (by simp) (by simp [orders, ascii]) (by decide)
  · exact hfield (by simp) (writeUint_ne_nil _) (soh_notMem_writeUint _)
  · exact hfield (by simp) (by simp [ascii]) (by decide)
  · exact hfield (by simp) (by simp; omega) (by simp [soh])
  · exact hfield (by simp) (by simp [sumText]) hsum

theorem textOrder_builds (n : Nat) :
    Builds orders (textOrder n).tokens (some 0) (textOrderSections n) := ⟨_, rfl, rfl, rfl, rfl⟩

theorem textOrder_parse (hpos : 0 < n) (hle : n + 9 ≤ u64Max) :
    Message.parse orders (texts (textOrder n).tokens) = .ok (textOrderMessage n) := by
  have hbody := length_textOrder_body n
  refine parse_iff.mpr ⟨textOrder n, some 0, textOrderSections n, rfl, ?_, textOrder_lexes hpos,
    textOrder_builds n, .inl rfl, rfl⟩
  refine Envelope.Tagged.fit_sound ⟨rfl, rfl, rfl, ?_, rfl⟩ rfl ?_ (hbody ▸ hle)
  · simp
  · show (ascii "D").all isAlphanumeric = true
    decide

theorem textOrder_numInGroups (n : Nat) (w : Bytes) : numInGroups (textOrderMessage n) w = [] := by
  have hkinds : ((textOrderMessage n).tape.filter Entry.isTagged).map Entry.kind =
      [.field, .field, .field, .field, .field] := rfl
  rw [numInGroups, hkinds, List.filterMap_eq_nil_iff]
  rintro ⟨t, kind⟩ h
  have hkind := (List.of_mem_zip h).2
  simp_all

theorem digits_le_twenty (h : n ≤ u64Max) : digits n ≤ 20 := by
  unfold digits
  split
  · omega
  · refine Nat.log_lt_of_lt_pow ‹_› (Nat.lt_of_le_of_lt h ?_)
    decide

/-- Of a text of 4 GiB its first byte is written: its length is kept in 32 bits, and the
byte after that many is taken for its delimiter. -/
theorem textOrder_written (hwrap : asU32 (n + 1) = 0) (hle : n + 10 ≤ u64Max) :
    (textOrderMessage (n + 1)).visit.flatMap (textOrderMessage (n + 1)).written =
      wireOf "35=D|58=x" := by
  set m := textOrderMessage (n + 1) with hm
  set e := textOrder (n + 1) with he
  have hvisit : m.visit = [(2, entryAt m.tape 2), (23, entryAt m.tape 23)] := rfl
  have hwritten (i : Nat) (x : Entry) (hx : x.kind = .field) : m.written (i, x) = m.spanBytes x :=
    if_neg (by simp [hx])
  -- the places of MsgType and of the text
  have hfirst : (e.begins.text ++ e.length.text).length ≤ 100 := by
    have hbody : e.length.value = writeUint (n + 10) := congrArg writeUint (length_textOrder_body (n + 1))
    have hdigits := digits_le_twenty hle
    have hbegins : e.begins.text.length = 10 := by
      change (Token.text ⟨.field, 8, orders.beginString⟩).length = 10
      decide +kernel
    have htag : digits e.length.tag = 1 := by
      change digits 9 = 1
      decide +kernel
    simp only [List.length_append, hbegins, Token.length_text, Token.valOff, htag, hbody,
      length_writeUint]
    omega
  have htype : e.msgType.text = wireOf "35=D|" := by
    change Token.text ⟨.field, 35, ascii "D"⟩ = _
    decide +kernel
  have h₂ : entryAt m.tape 2 =
      e.msgType.fieldEntry 0 (e.begins.text ++ e.length.text).length := by
    have hpos : (e.begins.text ++ e.length.text).length =
        0 + e.begins.wire.length + 0 + e.length.wire.length + 0 := by
      rw [Token.IsField.wire_eq (.inl rfl), Token.IsField.wire_eq (.inl rfl), List.length_append]
      omega
    rw [hpos]
    rfl
  have h₂₃ : entryAt m.tape 23 = Token.fieldEntry ⟨.field, 58, List.replicate (n + 1) 120⟩ 0
      (e.begins.text ++ e.length.text ++ e.msgType.text).length := by
    have hpos : (e.begins.text ++ e.length.text ++ e.msgType.text).length =
        (text (textOrderSections (n + 1)).headerPart).length := by
      change _ = (text (.node e.begins .nil (.node e.length .nil (.leaf e.msgType)))).length
      rw [Forest.leaf, text_node, text_node, text_node, Token.IsField.wire_eq (.inl rfl),
        Token.IsField.wire_eq (.inl rfl), Token.IsField.wire_eq (.inl rfl)]
      simp
    rw [hpos]
    rfl
  have hwire : m.wire = (e.begins.text ++ e.length.text) ++ (e.msgType.text ++
      (Token.text ⟨.field, 58, List.replicate (n + 1) 120⟩ ++ e.sum.text)) := by
    change texts (e.begins :: e.length :: e.msgType :: _ :: [e.sum]) = _
    simp
  have htext : Token.text ⟨.field, 58, List.replicate (n + 1) 120⟩ =
      wireOf "58=x" ++ (List.replicate n 120 ++ [soh]) := by
    have hhead : writeUint 58 ++ [61, 120] = wireOf "58=x" := by decide +kernel
    rw [← hhead]
    simp [Token.text, List.replicate_succ]
  have hspan₂ : m.spanBytes (entryAt m.tape 2) = wireOf "35=D|" := by
    have hlen : e.msgType.valOff + asU32 e.msgType.value.length + 1 = e.msgType.text.length := by
      rw [Token.length_text]
      rfl
    rw [h₂, ← htype, Message.spanBytes]
    simp only [Message.seg, Token.fieldEntry]
    rw [hwire, asU32_of_lt (by omega), hlen, slice_append]
  have hspan₂₃ : m.spanBytes (entryAt m.tape 23) = wireOf "58=x" := by
    have hpos : (e.begins.text ++ e.length.text ++ e.msgType.text).length ≤ 105 := by
      rw [List.length_append, htype]
      have hlen : (wireOf "35=D|").length = 5 := by decide +kernel
      omega
    have hlen : Token.valOff ⟨.field, 58, List.replicate (n + 1) 120⟩ +
        asU32 (List.replicate (n + 1) (120 : UInt8)).length + 1 = (wireOf "58=x").length := by
      have hoff : digits 58 + 1 + 0 + 1 = (wireOf "58=x").length := by decide +kernel
      rw [List.length_replicate, hwrap]
      exact hoff
    have hwire' : m.wire = (e.begins.text ++ e.length.text ++ e.msgType.text) ++ (wireOf "58=x" ++
        (List.replicate n 120 ++ [soh] ++ e.sum.text)) := by
      rw [hwire, htext]
      simp
    rw [h₂₃, Message.spanBytes]
    simp only [Message.seg, Token.fieldEntry]
    rw [hwire', asU32_of_lt (by omega), hlen, slice_append]
  rw [hvisit, List.flatMap_cons, List.flatMap_cons, List.flatMap_nil, hwritten _ _ rfl,
    hwritten _ _ rfl, hspan₂, hspan₂₃]
  decide +kernel

theorem textOrder_noLeadingZero (hpos : 0 < n) :
    ∀ t ∈ wireFields orders (texts (textOrder n).tokens), t.tag = 9 → NoLeadingZero t.value := by
  have hfields : wireFields orders (texts (textOrder n).tokens) = (textOrder n).tokens :=
    wireFieldsFrom_texts (textOrder_lexes hpos) [] (Nat.le_refl _)
  have hbody : 0 < (textOrder n).body.length := by
    rw [length_textOrder_body]
    omega
  rw [hfields]
  intro t ht htag
  simp only [textOrder, Envelope.tokens, Envelope.head, Envelope.fit, Envelope.measured,
    List.cons_append, List.nil_append, List.mem_cons, List.not_mem_nil, or_false] at ht
  rcases ht with rfl | rfl | rfl | rfl | rfl
  · cases htag
  · exact fun h => absurd h (head_writeUint hbody)
  · cases htag
  · cases htag
  · cases htag

theorem textOrder_encode (hwrap : asU32 (n + 1) = 0) (hle : n + 10 ≤ u64Max) :
    (textOrderMessage (n + 1)).encodeDelimited [] soh = frame orders (wireOf "35=D|58=x") := by
  rw [encodeDelimited_soh, textOrder_written hwrap hle]
  rfl

theorem textOrder_encode_ne (hlt : 31 ≤ n) (hwrap : asU32 (n + 1) = 0) (hle : n + 10 ≤ u64Max) :
    (textOrderMessage (n + 1)).encodeDelimited [] soh ≠ [] ++ texts (textOrder (n + 1)).tokens := by
  have hbody := length_textOrder_body (n + 1)
  have hlong : (textOrder (n + 1)).body.length ≤ (texts (textOrder (n + 1)).tokens).length := by
    simp [Envelope.body, Envelope.tokens, Envelope.head]
    omega
  have hshort : (frame orders (wireOf "35=D|58=x")).length = 30 := by decide +kernel
  rw [textOrder_encode hwrap hle]
  intro h
  rw [h, List.nil_append] at hshort
  omega

/-- A text of 4 GiB is lost: its length is kept in 32 bits. -/
theorem textOrder_lost :
    orders.Standard ∧ ∃ w m, Message.parse orders w = .ok m ∧
      (∀ t ∈ wireFields orders w, t.tag = 9 → NoLeadingZero t.value) ∧
      (∀ v ∈ numInGroups m w, NoLeadingZero v ∧ parseUint v ≠ .ok 0) ∧
      m.encodeDelimited [] soh ≠ [] ++ w := by
  refine ⟨orders_standard, texts (textOrder (2 ^ 32 - 1 + 1)).tokens,
    textOrderMessage (2 ^ 32 - 1 + 1), ?_, ?_, ?_, ?_⟩
  · exact textOrder_parse (by decide) (by decide)
  · exact textOrder_noLeadingZero (by decide)
  · rw [textOrder_numInGroups]
    simp
  · exact textOrder_encode_ne (by decide) (by decide) (by decide)

end Babelfix.Tape
