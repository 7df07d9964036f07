import Babelfix.Lib.Call

/-! # Reading items off a stream

Bytes arrive in pieces of any size. A decoder takes one item at a time off the front of
what has arrived, and each item is handed to a call, until more bytes are needed. If what
the decoder makes of the bytes there are does not change when more arrive, it does not
matter where the stream was cut. -/
namespace Babelfix.Lib

/-- What a decoder makes of the bytes there are: it needs more, takes an item off the
front, or gives up. -/
inductive Decoded (δ μ ε β : Type) where
  | more
  | item (decoder : δ) (item : μ) (rest : List β)
  | fail (e : ε)

/-- A verdict stands when more bytes arrive. The reason for giving up may change. -/
structure Incremental {δ μ ε β : Type} (decode : δ → List β → Decoded δ μ ε β) : Prop where
  item : ∀ {d xs d' m rest}, decode d xs = .item d' m rest →
    ∀ ys, decode d (xs ++ ys) = .item d' m (rest ++ ys)
  fail : ∀ {d xs e}, decode d xs = .fail e → ∀ ys, ∃ e', decode d (xs ++ ys) = .fail e'
  shrinks : ∀ {d xs d' m rest}, decode d xs = .item d' m rest → rest.length < xs.length

section

variable {δ μ ε β σ ω φ π : Type}

/-- How reading ends: waiting for more, because the decoder gave up, or because the call
an item was handed to does not want to go on. -/
inductive Halt (δ β σ φ π : Type) where
  | waiting (decoder : δ) (rest : List β) (state : σ)
  | failed (state : σ)
  | stopped (state : σ) (result : Except φ π)

def Halt.isWaiting : Halt δ β σ φ π → Bool
  | .waiting _ _ _ => true
  | _ => false

variable (decode : δ → List β → Decoded δ μ ε β) (goesOn : π → Bool)

/-- The call returned and wants to go on. -/
def GoesOn (r : Except φ π) : Prop := ∃ p, r = .ok p ∧ goesOn p = true

/-- Handing over what has arrived, item by item. `take` is the call an item is handed
to. -/
inductive Drains (take : μ → Call σ ω φ π) :
    δ → List β → σ → List ω → Halt δ β σ φ π → Prop
  | waiting {d xs s} (h : decode d xs = .more) : Drains take d xs s [] (.waiting d xs s)
  | failed {d xs s e} (h : decode d xs = .fail e) : Drains take d xs s [] (.failed s)
  | stopped {d xs s d' m rest} (h : decode d xs = .item d' m rest)
    (hstop : ¬ GoesOn goesOn ((take m).run s).result) :
    Drains take d xs s ((take m).run s).out
      (.stopped ((take m).run s).state ((take m).run s).result)
  | step {d xs s d' m rest o z} (h : decode d xs = .item d' m rest)
    (hgo : GoesOn goesOn ((take m).run s).result)
    (hrest : Drains take d' rest ((take m).run s).state o z) :
    Drains take d xs s (((take m).run s).out ++ o) z

/-- Reading what has arrived at a time, and each further piece, with the time it arrives,
while more is waited for. -/
inductive Feeds {τ : Type} (take : τ → μ → Call σ ω φ π) :
    τ → δ → List β → σ → List (τ × List β) → List ω → Halt δ β σ φ π → Prop
  | last {t d xs s o z} (h : Drains decode goesOn (take t) d xs s o z) : Feeds take t d xs s [] o z
  | halted {t d xs s o z piece pieces} (h : Drains decode goesOn (take t) d xs s o z)
    (hz : z.isWaiting = false) : Feeds take t d xs s (piece :: pieces) o z
  | next {t d xs s o d' rest s' t' piece pieces o' z}
    (h : Drains decode goesOn (take t) d xs s o (.waiting d' rest s'))
    (hnext : Feeds take t' d' (rest ++ piece) s' pieces o' z) :
    Feeds take t d xs s ((t', piece) :: pieces) (o ++ o') z

variable {decode goesOn} {take : μ → Call σ ω φ π} {d : δ} {xs : List β} {s : σ}
  {o o' : List ω} {z z' : Halt δ β σ φ π}

theorem Drains.unique (h : Drains decode goesOn take d xs s o z)
    (h' : Drains decode goesOn take d xs s o' z') : o = o' ∧ z = z' := by
  induction h generalizing o' with
  | waiting hd =>
    cases h' with
    | waiting _ => exact ⟨rfl, rfl⟩
    | failed hd' | stopped hd' _ | step hd' _ _ => rw [hd] at hd'; cases hd'
  | failed hd =>
    cases h' with
    | failed _ => exact ⟨rfl, rfl⟩
    | waiting hd' | stopped hd' _ | step hd' _ _ => rw [hd] at hd'; cases hd'
  | stopped hd hstop =>
    cases h' with
    | stopped hd' _ =>
      rw [hd] at hd'
      cases hd'
      exact ⟨rfl, rfl⟩
    | step hd' hgo _ =>
      rw [hd] at hd'
      cases hd'
      exact absurd hgo hstop
    | waiting hd' | failed hd' => rw [hd] at hd'; cases hd'
  | step hd hgo _ ih =>
    cases h' with
    | step hd' _ hrest' =>
      rw [hd] at hd'
      cases hd'
      obtain ⟨rfl, rfl⟩ := ih hrest'
      exact ⟨rfl, rfl⟩
    | stopped hd' hstop =>
      rw [hd] at hd'
      cases hd'
      exact absurd hgo hstop
    | waiting hd' | failed hd' => rw [hd] at hd'; cases hd'

/-- Reading comes to an end, whatever has arrived. -/
theorem Incremental.drains (hinc : Incremental decode) (take : μ → Call σ ω φ π) (d : δ)
    (xs : List β) (s : σ) : ∃ o z, Drains decode goesOn take d xs s o z := by
  induction hn : xs.length using Nat.strongRecOn generalizing d xs s with
  | ind n ih =>
    cases hd : decode d xs with
    | more => exact ⟨_, _, .waiting hd⟩
    | fail e => exact ⟨_, _, .failed hd⟩
    | item d' m rest =>
      by_cases hgo : GoesOn goesOn ((take m).run s).result
      · obtain ⟨o, z, hrest⟩ := ih _ (hn ▸ hinc.shrinks hd) d' rest ((take m).run s).state rfl
        exact ⟨_, _, .step hd hgo hrest⟩
      · exact ⟨_, _, .stopped hd hgo⟩

/-- Where reading has stopped for good, more bytes change nothing. -/
theorem Drains.append_of_halted (hinc : Incremental decode)
    (h : Drains decode goesOn take d xs s o z) (hz : z.isWaiting = false) (ys : List β) :
    Drains decode goesOn take d (xs ++ ys) s o z := by
  induction h with
  | waiting hd => cases hz
  | failed hd =>
    obtain ⟨e', he'⟩ := hinc.fail hd ys
    exact .failed he'
  | stopped hd hstop => exact .stopped (hinc.item hd ys) hstop
  | step hd hgo _ ih => exact .step (hinc.item hd ys) hgo (ih hz)

/-- Where reading waits, it goes on with what was left and what arrives. -/
theorem Drains.append_of_waiting (hinc : Incremental decode) {d' rest s'}
    (h : Drains decode goesOn take d xs s o (.waiting d' rest s')) {ys}
    (h' : Drains decode goesOn take d' (rest ++ ys) s' o' z') :
    Drains decode goesOn take d (xs ++ ys) s (o ++ o') z' := by
  generalize hz : Halt.waiting d' rest s' = z at h
  induction h with
  | waiting hd =>
    cases hz
    exact h'
  | step hd hgo _ ih =>
    rw [List.append_assoc]
    exact .step (hinc.item hd ys) hgo (ih hz)
  | _ => cases hz

/-! ## Pieces -/

section

variable {τ : Type} {take : τ → μ → Call σ ω φ π} {t : τ}

/-- **It does not matter where the stream was cut**, if the pieces all arrive at one
time. -/
theorem Feeds.drains (hinc : Incremental decode) {pieces}
    (h : Feeds decode goesOn take t d xs s pieces o z) (ht : ∀ piece ∈ pieces, piece.1 = t) :
    Drains decode goesOn (take t) d (xs ++ pieces.flatMap Prod.snd) s o z := by
  induction h with
  | last h => simpa using h
  | halted h hz => exact h.append_of_halted hinc hz _
  | next h _ ih =>
    obtain rfl := ht _ List.mem_cons_self
    have hrest := ih fun piece hpiece => ht piece (List.mem_cons_of_mem _ hpiece)
    rw [List.append_assoc] at hrest
    exact h.append_of_waiting hinc hrest

end

/-! ## Whole items

A stream that is one item's bytes after the other. Each item is handed over exactly once,
in order, at the time its last byte arrives. -/

/-- Hand over the items one after the other, while the calls go on. -/
def handAll {ι : Type} (goesOn : π → Bool) (idle : π) (take : ι → Call σ ω φ π) :
    List ι → Call σ ω φ π
  | [] => pure idle
  | x :: xs => do
    let p ← take x
    if goesOn p then handAll goesOn idle take xs else pure p

section

variable {ι : Type} {idle : π} {take : ι → Call σ ω φ π}

theorem not_goesOn_error {e} : ¬ GoesOn goesOn (.error e : Except φ π) := by
  rintro ⟨p, hp, -⟩
  cases hp

theorem handAll_cons_of_goesOn {x} (h : GoesOn goesOn ((take x).run s).result) (xs : List ι) :
    (handAll goesOn idle take (x :: xs)).run s =
      ((handAll goesOn idle take xs).run ((take x).run s).state).prepend ((take x).run s).out := by
  obtain ⟨p, hp, hgo⟩ := h
  rw [handAll, Call.run_bind, Outcome.andThen_of_ok _ hp, if_pos hgo]

theorem handAll_cons_of_not {x} (h : ¬ GoesOn goesOn ((take x).run s).result) (xs : List ι) :
    (handAll goesOn idle take (x :: xs)).run s = (take x).run s := by
  rw [handAll, Call.run_bind]
  cases hr : ((take x).run s).result with
  | error e => rw [Outcome.andThen_of_error _ hr, ← hr]
  | ok p =>
    rw [Outcome.andThen_of_ok _ hr, if_neg fun hp => h ⟨p, hr, hp⟩, Call.run_pure, ← hr]
    simp

theorem handAll_append_of_goesOn {xs}
    (h : GoesOn goesOn ((handAll goesOn idle take xs).run s).result) (ys : List ι) :
    (handAll goesOn idle take (xs ++ ys)).run s =
      ((handAll goesOn idle take ys).run ((handAll goesOn idle take xs).run s).state).prepend
        ((handAll goesOn idle take xs).run s).out := by
  induction xs generalizing s with
  | nil => rfl
  | cons x xs ih =>
    by_cases hx : GoesOn goesOn ((take x).run s).result
    · rw [handAll_cons_of_goesOn hx] at h ⊢
      rw [List.cons_append, handAll_cons_of_goesOn hx, ih h]
      simp [Outcome.prepend]
    · rw [handAll_cons_of_not hx] at h
      exact absurd h hx

theorem handAll_append_of_not (hidle : goesOn idle = true) {xs}
    (h : ¬ GoesOn goesOn ((handAll goesOn idle take xs).run s).result) (ys : List ι) :
    (handAll goesOn idle take (xs ++ ys)).run s = (handAll goesOn idle take xs).run s := by
  induction xs generalizing s with
  | nil => exact absurd ⟨idle, rfl, hidle⟩ h
  | cons x xs ih =>
    by_cases hx : GoesOn goesOn ((take x).run s).result
    · rw [handAll_cons_of_goesOn hx] at h ⊢
      rw [List.cons_append, handAll_cons_of_goesOn hx, ih h]
    · rw [List.cons_append, handAll_cons_of_not hx, handAll_cons_of_not hx]

theorem handAll_map {κ : Type} (f : κ → ι) (xs : List κ) :
    handAll goesOn idle take (xs.map f) = handAll goesOn idle (fun x => take (f x)) xs := by
  induction xs with
  | nil => rfl
  | cons x xs ih => rw [List.map_cons, handAll, handAll, ih]

end

section

variable {τ : Type} {take : τ → μ → Call σ ω φ π} {t : τ} {idle : π}

/-- Hand over each item at its time. -/
def handAllAt (goesOn : π → Bool) (idle : π) (take : τ → μ → Call σ ω φ π) (times : List τ)
    (xs : List μ) : Call σ ω φ π :=
  handAll goesOn idle (fun x : τ × μ => take x.1 x.2) (times.zip xs)

theorem handAllAt_replicate (xs : List μ) :
    handAllAt goesOn idle take (List.replicate xs.length t) xs = handAll goesOn idle (take t) xs := by
  have hzip : (List.replicate xs.length t).zip xs = xs.map fun x => (t, x) := by
    induction xs with
    | nil => rfl
    | cons x xs ih => rw [List.length_cons, List.replicate_succ, List.zip_cons_cons, ih, List.map_cons]
  rw [handAllAt, hzip, handAll_map]

theorem handAllAt_append_of_goesOn {xs}
    (h : GoesOn goesOn ((handAll goesOn idle (take t) xs).run s).result) (times : List τ)
    (ys : List μ) :
    (handAllAt goesOn idle take (List.replicate xs.length t ++ times) (xs ++ ys)).run s =
      ((handAllAt goesOn idle take times ys).run
          ((handAll goesOn idle (take t) xs).run s).state).prepend
        ((handAll goesOn idle (take t) xs).run s).out := by
  rw [← handAllAt_replicate] at h ⊢
  rw [handAllAt, List.zip_append (by simp)]
  exact handAll_append_of_goesOn h _

/-- What is read when an item after the other has been handed over: waiting for the rest,
or stopped where a call did not go on. -/
inductive HandedOver (goesOn : π → Bool) (d : δ) (rest : List β) (r : Outcome σ ω φ π) :
    Halt δ β σ φ π → Prop
  | waiting (h : GoesOn goesOn r.result) : HandedOver goesOn d rest r (.waiting d rest r.state)
  | stopped (h : ¬ GoesOn goesOn r.result) :
    HandedOver goesOn d rest r (.stopped r.state r.result)

/-- Fewer bytes than an item has are not enough. -/
theorem Incremental.more (hinc : Incremental decode) {ys m d'}
    (h : decode d (xs ++ ys) = .item d' m []) (hys : ys ≠ []) : decode d xs = .more := by
  cases hd : decode d xs with
  | more => rfl
  | fail e =>
    obtain ⟨e', he'⟩ := hinc.fail hd ys
    rw [h] at he'
    cases he'
  | item d'' m' rest =>
    have hitem := hinc.item hd ys
    rw [h] at hitem
    cases rest with
    | nil => simp [hys] at hitem
    | cons b rest => simp at hitem

/-- Of a stream of items, those whose bytes have all arrived are handed over. -/
theorem Incremental.drains_items (hinc : Incremental decode) (hidle : goesOn idle = true) {items}
    (hitems : ∀ x ∈ items, decode d x.1 = .item d x.2 []) (hmore : decode d [] = .more) {xs tail}
    (h : xs ++ tail = items.flatMap Prod.fst) (take : τ → μ → Call σ ω φ π) (t : τ) (s : σ) :
    ∃ done left rest, items = done ++ left ∧ rest ++ tail = left.flatMap Prod.fst ∧
      (tail = [] → left = []) ∧
      ∃ z, Drains decode goesOn (take t) d xs s
          ((handAll goesOn idle (take t) (done.map Prod.snd)).run s).out z ∧
        HandedOver goesOn d rest ((handAll goesOn idle (take t) (done.map Prod.snd)).run s) z := by
  induction items generalizing xs s with
  | nil =>
    obtain ⟨rfl, rfl⟩ : xs = [] ∧ tail = [] := by simpa using h
    exact ⟨[], [], [], rfl, rfl, fun _ => rfl, _, .waiting hmore, .waiting ⟨idle, rfl, hidle⟩⟩
  | cons x items ih =>
    have hx := hitems x List.mem_cons_self
    rw [List.flatMap_cons] at h
    by_cases hle : x.1.length ≤ xs.length
    · obtain ⟨ys, rfl⟩ : ∃ ys, xs = x.1 ++ ys :=
        List.prefix_of_prefix_length_le (List.prefix_append _ _) ⟨tail, h⟩ hle |>.imp fun _ => Eq.symm
      rw [List.append_assoc] at h
      have hdecode := hinc.item hx ys
      obtain ⟨done, left, rest, rfl, hrest, htail, z, hdrains, hz⟩ :=
        ih (fun y hy => hitems y (List.mem_cons_of_mem _ hy)) (List.append_cancel_left h)
          ((take t x.2).run s).state
      refine ⟨x :: done, left, rest, rfl, hrest, htail, ?_⟩
      rw [List.map_cons]
      by_cases hgo : GoesOn goesOn ((take t x.2).run s).result
      · rw [handAll_cons_of_goesOn hgo]
        refine ⟨z, .step hdecode hgo hdrains, ?_⟩
        cases hz with
        | waiting h => exact .waiting h
        | stopped h => exact .stopped h
      · rw [handAll_cons_of_not hgo]
        exact ⟨_, .stopped hdecode hgo, .stopped hgo⟩
    · obtain ⟨ys, hys⟩ : xs <+: x.1 :=
        List.prefix_of_prefix_length_le ⟨tail, h⟩ (List.prefix_append _ _) (by omega)
      have hne : ys ≠ [] := by
        intro hnil
        rw [hnil, List.append_nil] at hys
        rw [hys] at hle
        exact hle (Nat.le_refl _)
      rw [← hys, List.append_assoc] at h
      have htail := List.append_cancel_left h
      refine ⟨[], x :: items, xs, rfl, ?_, ?_, _, .waiting ?_, .waiting ⟨idle, rfl, hidle⟩⟩
      · rw [htail, List.flatMap_cons, ← hys, List.append_assoc]
      · intro hnil
        rw [hnil] at htail
        exact absurd (List.append_eq_nil_iff.mp htail.symm).1 hne
      · rw [← hys] at hx
        exact hinc.more hx hne

/-- **A stream of items, cut anywhere: each item is handed over exactly once, in order.** -/
theorem Feeds.items (hinc : Incremental decode) (hidle : goesOn idle = true)
    {items : List (List β × μ)} (hitems : ∀ x ∈ items, decode d x.1 = .item d x.2 [])
    (hmore : decode d [] = .more) {pieces} (h : Feeds decode goesOn take t d xs s pieces o z)
    (hxs : xs ++ pieces.flatMap Prod.snd = items.flatMap Prod.fst) :
    ∃ times : List τ, times.length = items.length ∧
      o = ((handAllAt goesOn idle take times (items.map Prod.snd)).run s).out ∧
      HandedOver goesOn d [] ((handAllAt goesOn idle take times (items.map Prod.snd)).run s) z := by
  induction h generalizing items with
  | @last t d xs s o z h =>
    obtain ⟨done, left, rest, rfl, hrest, htail, z', hdrains, hz⟩ :=
      hinc.drains_items hidle hitems hmore hxs take t s
    obtain ⟨rfl, rfl⟩ := h.unique hdrains
    obtain rfl := htail rfl
    obtain rfl : rest = [] := by simpa using hrest
    refine ⟨List.replicate (done.map Prod.snd).length t, by simp, ?_⟩
    rw [List.append_nil, handAllAt_replicate]
    exact ⟨rfl, hz⟩
  | @halted t d xs s o z piece pieces h hhalted =>
    obtain ⟨done, left, rest, rfl, -, -, z', hdrains, hz⟩ :=
      hinc.drains_items hidle hitems hmore hxs take t s
    obtain ⟨rfl, rfl⟩ := h.unique hdrains
    cases hz with
    | waiting _ => cases hhalted
    | stopped hstop =>
      refine ⟨List.replicate ((done ++ left).map Prod.snd).length t, by simp, ?_⟩
      rw [handAllAt_replicate, List.map_append, handAll_append_of_not hidle hstop]
      exact ⟨rfl, .stopped hstop⟩
  | @next t d xs s o d' rest' s' t' piece pieces o' z h _ ih =>
    obtain ⟨done, left, rest, rfl, hrest, -, z', hdrains, hz⟩ :=
      hinc.drains_items hidle hitems hmore hxs take t s
    obtain ⟨rfl, rfl⟩ := h.unique hdrains
    cases hz with
    | waiting hgo =>
      rw [List.flatMap_cons, ← List.append_assoc] at hrest
      obtain ⟨times, hlen, rfl, hz'⟩ :=
        ih (fun x hx => hitems x (List.mem_append_right _ hx)) hmore hrest
      refine ⟨List.replicate (done.map Prod.snd).length t ++ times, by simp [hlen], ?_⟩
      rw [List.map_append, handAllAt_append_of_goesOn hgo]
      refine ⟨rfl, ?_⟩
      cases hz' with
      | waiting h => exact .waiting h
      | stopped h => exact .stopped h

end

end

end Babelfix.Lib
