import Mathlib.Data.Finset.Card
import Mathlib.Data.Finset.Dedup
import Mathlib.Logic.Relation

/-! # Unfolding references

A list in which an item may stand for another list, whose items may stand for further
ones. Unfolding puts after each item what it stands for, all the way down. A recursion
that goes through the items in order and into what they stand for is a fold over the
unfolding; it comes to an end exactly if there is one, and over finitely many definitions
there is one for every list exactly if no item is met again inside what it stands for. -/
namespace Babelfix.Lib

open Relation

/-- The items that are met by going through a list, each followed by those inside it. -/
inductive Unfolds {ι : Type} (body : ι → Option (List ι)) : List ι → List ι → Prop
  | nil : Unfolds body [] []
  | leaf {x : ι} {xs out : List ι} (hx : body x = none) (hxs : Unfolds body xs out) :
      Unfolds body (x :: xs) (x :: out)
  | node {x : ι} {ys inner xs out : List ι} (hx : body x = some ys) (hys : Unfolds body ys inner)
      (hxs : Unfolds body xs out) : Unfolds body (x :: xs) (x :: (inner ++ out))

/-- A recursion that visits each item and goes into it, at most `fuel` deep. -/
def descend {ι σ : Type} (body : ι → Option (List ι)) (visit : σ → ι → σ) :
    Nat → List ι → σ → Option σ
  | 0, _, _ => none
  | fuel + 1, xs, s =>
    xs.foldlM (fun s x =>
      match body x with
      | some ys => descend body visit fuel ys (visit s x)
      | none => some (visit s x)) s

/-- What an item stands for, if it has a name and that name is defined. -/
def expand {ι κ : Type} (name : ι → Option κ) (defs : κ → Option (List ι)) (x : ι) : Option (List ι) :=
  (name x).bind defs

/-- The definition of `a` names `b`, which is defined. -/
def StepsTo {ι κ : Type} (name : ι → Option κ) (defs : κ → Option (List ι)) (a b : κ) : Prop :=
  ∃ ys, defs a = some ys ∧ (∃ y ∈ ys, name y = some b) ∧ (defs b).isSome

/-- No name is met again inside what it stands for. -/
def Acyclic {ι κ : Type} (name : ι → Option κ) (defs : κ → Option (List ι)) : Prop :=
  ∀ a, ¬ TransGen (StepsTo name defs) a a

section

variable {ι σ : Type} {body : ι → Option (List ι)} {visit : σ → ι → σ}

theorem Unfolds.unique {xs out out'} (h : Unfolds body xs out) (h' : Unfolds body xs out') :
    out = out' := by
  induction h generalizing out' with
  | nil =>
    cases h'
    rfl
  | leaf hx _ ih =>
    cases h' with
    | leaf _ hxs => rw [ih hxs]
    | node hx' => rw [hx] at hx'; cases hx'
  | node hx _ _ ihys ihxs =>
    cases h' with
    | leaf hx' => rw [hx] at hx'; cases hx'
    | node hx' hys hxs =>
      rw [hx] at hx'
      obtain rfl := Option.some.inj hx'
      rw [ihys hys, ihxs hxs]

/-- What holds of the items of a list and inside every item holds of all that is met. -/
theorem Unfolds.forall_mem {P : ι → Prop} {xs out} (h : Unfolds body xs out) (hxs : ∀ x ∈ xs, P x)
    (hbody : ∀ x ys, body x = some ys → ∀ y ∈ ys, P y) : ∀ x ∈ out, P x := by
  induction h with
  | nil => exact hxs
  | leaf _ _ ih =>
    have hrest := ih fun y hy => hxs y (List.mem_cons_of_mem _ hy)
    exact List.forall_mem_cons.mpr ⟨hxs _ List.mem_cons_self, hrest⟩
  | node hx _ _ ihinner ih =>
    have hrest := ih fun y hy => hxs y (List.mem_cons_of_mem _ hy)
    have hinner := ihinner (hbody _ _ hx)
    exact List.forall_mem_cons.mpr ⟨hxs _ List.mem_cons_self, List.forall_mem_append.mpr ⟨hinner, hrest⟩⟩

/-! ## The recursion is a fold -/

theorem descend_cons (fuel : Nat) (x : ι) (xs : List ι) (s : σ) :
    descend body visit (fuel + 1) (x :: xs) s =
      (match body x with
        | some ys => descend body visit fuel ys (visit s x)
        | none => some (visit s x)).bind (descend body visit (fuel + 1) xs) := by
  rfl

variable {t : σ}

/-- What a recursion that ends has gone through. -/
theorem descend_eq_some {fuel xs s} (h : descend body visit fuel xs s = some t) :
    ∃ out, Unfolds body xs out ∧ t = out.foldl visit s := by
  induction fuel generalizing xs s t with
  | zero => cases h
  | succ fuel ih =>
    induction xs generalizing s with
    | nil =>
      exact ⟨[], .nil, (Option.some.inj h).symm⟩
    | cons x xs ihxs =>
      rw [descend_cons] at h
      cases hx : body x with
      | none =>
        rw [hx] at h
        obtain ⟨out, hout, rfl⟩ := ihxs h
        exact ⟨x :: out, .leaf hx hout, rfl⟩
      | some ys =>
        rw [hx] at h
        obtain ⟨u, hys, hxs⟩ := Option.bind_eq_some_iff.mp h
        obtain ⟨inner, hinner, rfl⟩ := ih hys
        obtain ⟨out, hout, rfl⟩ := ihxs hxs
        exact ⟨x :: (inner ++ out), .node hx hinner hout, by simp⟩

/-- More fuel does not change what is returned. -/
theorem descend_mono {fuel fuel' xs s} (hle : fuel ≤ fuel')
    (h : descend body visit fuel xs s = some t) : descend body visit fuel' xs s = some t := by
  induction fuel generalizing fuel' xs s t with
  | zero => cases h
  | succ fuel ih =>
    obtain ⟨fuel', rfl⟩ : ∃ k, fuel' = k + 1 := ⟨fuel' - 1, by omega⟩
    induction xs generalizing s with
    | nil => exact h
    | cons x xs ihxs =>
      rw [descend_cons] at h ⊢
      cases hx : body x with
      | none =>
        rw [hx] at h
        exact ihxs h
      | some ys =>
        rw [hx] at h
        obtain ⟨u, hys, hxs⟩ := Option.bind_eq_some_iff.mp h
        exact Option.bind_eq_some_iff.mpr ⟨u, ih (by omega) hys, ihxs hxs⟩

/-! ## Cycles -/

/-- What is inside an item of a list is less than what is inside the list. -/
theorem Unfolds.inner {xs out} (h : Unfolds body xs out) {y} (hy : y ∈ xs) {zs}
    (hzs : body y = some zs) : ∃ inner, Unfolds body zs inner ∧ inner.length < out.length := by
  induction h with
  | nil => cases hy
  | leaf hx _ ih =>
    rcases List.mem_cons.mp hy with rfl | hy
    · rw [hzs] at hx
      cases hx
    · obtain ⟨inner, hinner, hlt⟩ := ih hy
      exact ⟨inner, hinner, by rw [List.length_cons]; omega⟩
  | node hx hys _ _ ih =>
    rcases List.mem_cons.mp hy with rfl | hy
    · rw [hzs] at hx
      obtain rfl := Option.some.inj hx
      exact ⟨_, hys, by rw [List.length_cons, List.length_append]; omega⟩
    · obtain ⟨inner, hinner, hlt⟩ := ih hy
      exact ⟨inner, hinner, by rw [List.length_cons, List.length_append]; omega⟩

end

section

variable {ι κ : Type} {name : ι → Option κ} {defs : κ → Option (List ι)}

variable {a : κ}

/-- Unfoldings get shorter from a definition to those it names. -/
theorem StepsTo.shorter {b} (h : StepsTo name defs a b) {ys zs out} (hys : defs a = some ys)
    (hout : Unfolds (expand name defs) ys out) (hzs : defs b = some zs) :
    ∃ inner, Unfolds (expand name defs) zs inner ∧ inner.length < out.length := by
  obtain ⟨ys', hys', ⟨y, hy, hname⟩, -⟩ := h
  rw [hys] at hys'
  obtain rfl := Option.some.inj hys'
  refine hout.inner hy ?_
  rw [expand, hname, Option.bind_some, hzs]

/-- Where every definition can be unfolded there is no cycle. -/
theorem acyclic_of_unfolds (h : ∀ a ys, defs a = some ys → ∃ out, Unfolds (expand name defs) ys out) :
    Acyclic name defs := by
  have hshorter : ∀ {a b : κ}, TransGen (StepsTo name defs) a b → ∀ {ys zs out}, defs a = some ys →
      Unfolds (expand name defs) ys out → defs b = some zs →
      ∃ inner, Unfolds (expand name defs) zs inner ∧ inner.length < out.length := by
    intro a b hab
    induction hab with
    | single hstep => exact fun hys hout hzs => hstep.shorter hys hout hzs
    | tail _ hstep ih =>
      intro ys zs out hys hout hzs
      obtain ⟨ys', hys', -⟩ := id hstep
      obtain ⟨inner, hinner, hlt⟩ := ih hys hout hys'
      obtain ⟨inner', hinner', hlt'⟩ := hstep.shorter hys' hinner hzs
      exact ⟨inner', hinner', by omega⟩
  intro a hcycle
  obtain ⟨b, ⟨ys, hys, -⟩, -⟩ := TransGen.head'_iff.mp hcycle
  obtain ⟨out, hout⟩ := h a ys hys
  obtain ⟨inner, hinner, hlt⟩ := hshorter hcycle hys hout hys
  rw [hinner.unique hout] at hlt
  omega

open Classical in
/-- How many of the names that are defined are met from `a` on. -/
noncomputable def reachCount (name : ι → Option κ) (defs : κ → Option (List ι)) (names : List κ) (a : κ) :
    Nat :=
  (names.toFinset.filter fun b => ReflTransGen (StepsTo name defs) a b).card

variable {names : List κ}

theorem reachCount_le (a : κ) : reachCount name defs names a ≤ names.length := by
  classical
  refine (Finset.card_filter_le _ _).trans ?_
  convert List.toFinset_card_le names

theorem reachCount_pos (ha : a ∈ names) : 0 < reachCount name defs names a := by
  classical
  refine Finset.card_pos.mpr ⟨a, ?_⟩
  rw [Finset.mem_filter]
  exact ⟨List.mem_toFinset.mpr ha, .refl⟩

/-- Without cycles fewer names are met from those a definition names. -/
theorem reachCount_lt (hacyclic : Acyclic name defs) {b : κ} (ha : a ∈ names)
    (hstep : StepsTo name defs a b) : reachCount name defs names b < reachCount name defs names a := by
  classical
  refine Finset.card_lt_card (Finset.ssubset_iff_of_subset ?_ |>.mpr ⟨a, ?_, ?_⟩)
  · intro c hc
    rw [Finset.mem_filter] at hc ⊢
    exact ⟨hc.1, .head hstep hc.2⟩
  · rw [Finset.mem_filter]
    exact ⟨List.mem_toFinset.mpr ha, .refl⟩
  · rw [Finset.mem_filter]
    intro hmem
    exact hacyclic a (TransGen.head'_iff.mpr ⟨b, hstep, hmem.2⟩)

/-- A recursion over a list ends within as many levels as names are met from it. -/
theorem Acyclic.unfolds_within (hacyclic : Acyclic name defs) (hnames : ∀ a, (defs a).isSome → a ∈ names)
    (n : Nat) (xs : List ι)
    (hxs : ∀ x ∈ xs, ∀ a, name x = some a → (defs a).isSome → reachCount name defs names a ≤ n) :
    ∃ out, Unfolds (expand name defs) xs out ∧ ∀ (σ : Type) (visit : σ → ι → σ) (s : σ),
      descend (expand name defs) visit (n + 1) xs s = some (out.foldl visit s) := by
  induction n using Nat.strong_induction_on generalizing xs with
  | _ n ih =>
    induction xs with
    | nil => exact ⟨[], .nil, fun _ _ _ => rfl⟩
    | cons x xs ihxs =>
      obtain ⟨out, hout, hgo⟩ := ihxs fun y hy => hxs y (List.mem_cons_of_mem _ hy)
      cases hx : expand name defs x with
      | none =>
        refine ⟨x :: out, .leaf hx hout, fun σ visit s => ?_⟩
        rw [descend_cons, hx]
        exact hgo σ visit _
      | some ys =>
        obtain ⟨a, hname, hys⟩ := Option.bind_eq_some_iff.mp hx
        have hsome : (defs a).isSome := by simp [hys]
        have hpos : 0 < reachCount name defs names a := reachCount_pos (hnames a hsome)
        have hle := hxs x List.mem_cons_self a hname hsome
        obtain ⟨k, rfl⟩ : ∃ k, n = k + 1 := ⟨n - 1, by omega⟩
        -- fewer names are met from what is inside
        have hinside : ∀ y ∈ ys, ∀ b, name y = some b → (defs b).isSome →
            reachCount name defs names b ≤ k := by
          intro y hy b hb hbsome
          have hlt : reachCount name defs names b < reachCount name defs names a :=
            reachCount_lt hacyclic (hnames a hsome) ⟨ys, hys, ⟨y, hy, hb⟩, hbsome⟩
          omega
        obtain ⟨inner, hinner, hin⟩ := ih k (by omega) ys hinside
        refine ⟨x :: (inner ++ out), .node hx hinner hout, fun σ visit s => ?_⟩
        rw [descend_cons, hx]
        refine Option.bind_eq_some_iff.mpr ⟨_, hin σ visit _, ?_⟩
        rw [hgo σ visit, List.foldl_cons, List.foldl_append]

/-- **Without cycles every list can be unfolded**, by a recursion no deeper than there are
definitions. -/
theorem Acyclic.unfolds (hacyclic : Acyclic name defs) (hnames : ∀ a, (defs a).isSome → a ∈ names)
    (xs : List ι) :
    ∃ out, Unfolds (expand name defs) xs out ∧ ∀ (σ : Type) (visit : σ → ι → σ) (s : σ),
      descend (expand name defs) visit (names.length + 1) xs s = some (out.foldl visit s) :=
  hacyclic.unfolds_within hnames names.length xs fun _ _ a _ _ => reachCount_le a

end

end Babelfix.Lib
