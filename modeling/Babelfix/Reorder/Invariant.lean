import Babelfix.Lib.Spec
import Babelfix.Reorder.Spec

/-! # What the release loops do

`release` is any call: it may close the session or fail at any time. A loop that runs to
its end has released all that was held below some number, in order. One that stops early
leaves a window that is as sound: `release` did not go on, or a number overflowed. -/
namespace Babelfix.Reorder
open Lib Session ReorderWindow

section
variable {τ ω : Type} {release : Release τ ω}

/-- `release` always goes well. -/
def Continues (release : Release τ ω) : Prop :=
  ∀ msg t, ((release msg).run t).result = .ok .continue

/-- What `release` acts on once it has gone on after each of these, unless it stops. -/
def goOn (release : Release τ ω) (t : τ) (msgs : List Message) : Option τ :=
  msgs.foldlM (fun t msg =>
    match ((release msg).run t).result with
    | .ok .continue => some ((release msg).run t).state
    | _ => none) t

theorem goOn_append (t : τ) (xs ys : List Message) :
    goOn release t (xs ++ ys) = (goOn release t xs).bind fun t' => goOn release t' ys :=
  List.foldlM_append

theorem goOn_isSome (hrel : Continues release) (t : τ) (msgs : List Message) :
    (goOn release t msgs).isSome := by
  induction msgs generalizing t with
  | nil => rfl
  | cons msg rest ih =>
    rw [goOn, List.foldlM_cons]
    simp only [hrel msg t]
    exact ih _

theorem not_continues {t msgs} (h : goOn release t msgs = none) : ¬ Continues release := by
  intro hrel
  have hsome := goOn_isSome hrel t msgs
  rw [h] at hsome
  cases hsome

/-- What `f` has from `a` up to, not including, `b`, in order. -/
def between (f : Nat → Option Message) (a b : Nat) : List Message :=
  (List.range' a (b - a)).filterMap f

section
variable {f g : Nat → Option Message} {a b c : Nat}

theorem between_self (f : Nat → Option Message) (a : Nat) : between f a a = [] := by
  simp [between]

theorem between_append (hab : a ≤ b) (hbc : b ≤ c) : between f a b ++ between f b c = between f a c := by
  have hrange := List.range'_append_1 (s := a) (m := b - a) (n := c - b)
  rw [show a + (b - a) = b by omega, show b - a + (c - b) = c - a by omega] at hrange
  rw [between, between, between, ← hrange, List.filterMap_append]

theorem between_cons (hab : a < b) : between f a b = (f a).toList ++ between f (a + 1) b := by
  rw [← between_append (Nat.le_succ a) hab, between, Nat.succ_sub (Nat.le_refl a), Nat.sub_self]
  cases hf : f a <;> simp [hf]

theorem between_congr (h : ∀ n, a ≤ n → f n = g n) : between f a b = between g a b :=
  List.filterMap_congr fun n hn => h n (List.mem_range'_1.mp hn).1

theorem between_eq_nil (h : ∀ n, a ≤ n → n < b → f n = none) : between f a b = [] := by
  refine List.filterMap_eq_nil_iff.mpr fun n hn => ?_
  obtain ⟨hlo, hhi⟩ := List.mem_range'_1.mp hn
  exact h n hlo (by omega)

/-- Of the messages `f` has from `a` on, `release` goes on after all those before `last` and
stops at `last`. From `start` to the one after `last` there is no gap. -/
structure Halts (release : Release τ ω) (t : τ) (f : Nat → Option Message)
    (a start last : Nat) : Prop where
  le : start ≤ last
  run : ∀ n, start ≤ n → n ≤ last + 1 → (f n).isSome
  goes : (goOn release t (between f a last)).isSome
  stops : goOn release t (between f a (last + 1)) = none

variable {t t' : τ} {start last : Nat}

theorem Halts.before (h : Halts release t' g b start last) (hab : a ≤ b) (hb : b ≤ start)
    (hgo : goOn release t (between f a b) = some t') (hsame : ∀ n, b ≤ n → g n = f n) :
    Halts release t f a start last := by
  have hle := h.le
  refine ⟨hle, fun n hlo hhi => hsame n (hb.trans hlo) ▸ h.run n hlo hhi, ?_, ?_⟩
  · rw [← between_append hab (hb.trans hle), goOn_append, hgo, ← between_congr hsame]
    exact h.goes
  · rw [← between_append hab (show b ≤ last + 1 by omega), goOn_append, hgo, ← between_congr hsame]
    exact h.stops

theorem Halts.cons (h : Halts release t f a (start + 1) last) (hf : (f start).isSome) :
    Halts release t f a start last := by
  refine ⟨Nat.le_of_succ_le h.le, fun n hlo hhi => ?_, h.goes, h.stops⟩
  obtain rfl | hlt := Nat.eq_or_lt_of_le hlo
  · exact hf
  · exact h.run n hlt hhi

theorem Halts.first {msg} (hf : f a = some msg) (hnext : (f (a + 1)).isSome)
    (hstop : goOn release t [msg] = none) : Halts release t f a a a := by
  refine ⟨le_rfl, fun n hlo hhi => ?_, ?_, ?_⟩
  · obtain rfl | hlt := Nat.eq_or_lt_of_le hlo
    · rw [hf]
      rfl
    · rwa [show n = a + 1 by omega]
  · rw [between_self]
    rfl
  · rw [between_cons (Nat.lt_succ_self a), hf, between_self]
    exact hstop

end

/-- What holds once a call has run to its end, and what if it stopped early. -/
def Goes (stop P : Prop) : Progress → Prop
  | .continue => P
  | .close => stop

variable {P P' stop : Prop} {progress : Progress}

theorem Goes.mono (h : Goes stop P progress) (hP : P → P') : Goes stop P' progress := by
  cases progress with
  | close => exact h
  | «continue» => exact hP h

theorem Goes.of_continues (hrel : Continues release) (h : Goes (¬ Continues release) P progress) :
    P := by
  cases progress with
  | close => exact absurd hrel h
  | «continue» => exact h

variable {msg : Message} {n a b : Nat} {p : Windowed τ} {w w' : ReorderWindow}

section
variable {α β : Type} {R : α → List (Shown ω) → Windowed τ → Prop} {E E₀ : Windowed τ → Prop}

/-- A call that may close, and what comes after it if it does not. -/
theorem ends_go {c : WindowOp τ ω Progress} {f : Progress → WindowOp τ ω α}
    {S : β → Windowed τ → Prop} {Q : β → List (Shown ω) → Windowed τ → Prop}
    (hc : (c.run p).Ends (fun progress o p' => ∃ b, S b p' ∧ Goes stop (Q b o p') progress) E₀)
    (hE : ∀ p', E₀ p' → E p') (hclose : ∀ b o p', S b p' → stop →
      ((f .close).run p').Ends (fun x o' => R x (o ++ o')) E)
    (hgo : ∀ b o p', S b p' → Q b o p' →
      ((f .continue).run p').Ends (fun x o' => R x (o ++ o')) E) :
    ((c >>= f).run p).Ends R E := by
  refine Call.ends_bind (hc.mono (fun _ _ _ hq => hq) hE) ?_
  intro progress o p' ⟨b, hS, hgoes⟩
  cases progress with
  | close => exact hclose b o p' hS hgoes
  | «continue» => exact hgo b o p' hS hgoes

theorem handOn_ends (msg : Message) (p : Windowed τ) :
    ((Windowed.handOn release msg).run p).Ends
      (fun progress o p' => ∃ t, p' = { p with target := t } ∧
        Goes (goOn release p.target [msg] = none)
          (released o = (number msg).toList ∧ goOn release p.target [msg] = some t) progress)
      (fun p' => (∃ t, p' = { p with target := t }) ∧ goOn release p.target [msg] = none) := by
  have hout : released (Shown.released msg :: ((release msg).run p.target).out.map Shown.wrote) =
      (number msg).toList := by
    have hwrote : released (((release msg).run p.target).out.map Shown.wrote) = [] := by
      refine List.filterMap_eq_nil_iff.mpr ?_
      intro x hx
      obtain ⟨o, -, rfl⟩ := List.mem_map.mp hx
      rfl
    cases hn : number msg <;> simp [released, Shown.number, hn]
  have hone : goOn release p.target [msg] = match ((release msg).run p.target).result with
      | .ok .continue => some ((release msg).run p.target).state
      | _ => none := List.foldlM_cons.trans (bind_pure _)
  unfold Outcome.Ends
  cases hr : ((Windowed.handOn release msg).run p).result with
  | error f => exact ⟨⟨_, rfl⟩, by rw [hone, show ((release msg).run p.target).result = .error f from hr]⟩
  | ok progress =>
    rw [show ((release msg).run p.target).result = .ok progress from hr] at hone
    refine ⟨_, rfl, ?_⟩
    cases progress with
    | «continue» => exact ⟨hout, hone⟩
    | close => exact hone

theorem ends_handOn {f : Progress → WindowOp τ ω α}
    (hE : ∀ t, goOn release p.target [msg] = none → E { p with target := t })
    (hclose : ∀ o t, goOn release p.target [msg] = none →
      ((f .close).run { p with target := t }).Ends (fun x o' => R x (o ++ o')) E)
    (hgo : ∀ o t, released o = (number msg).toList → goOn release p.target [msg] = some t →
      ((f .continue).run { p with target := t }).Ends (fun x o' => R x (o ++ o')) E) :
    ((Windowed.handOn release msg >>= f).run p).Ends R E := by
  refine ends_go (handOn_ends msg p) ?_ ?_ ?_
  · rintro _ ⟨⟨t, rfl⟩, hstop⟩
    exact hE t hstop
  · rintro t o _ rfl hstop
    exact hclose o t hstop
  · rintro t o _ rfl ⟨ho, hgo'⟩
    exact hgo o t ho hgo'

theorem ends_takeHeld {f} (h : p.window.Sound)
    (hnone : ¬ p.window.Holds n → ((f none).run p).Ends R E)
    (hsome : ∀ msg w', p.window.Holds n → p.window.Taken n msg w' →
      ((f (some msg)).run { p with window := w' }).Ends R E) :
    ((Windowed.takeHeld n >>= f).run p).Ends R E := by
  obtain ⟨ht, hfree⟩ | ⟨msg, w', ht, hheld, htaken⟩ := h.take n
  · have hrun : (Windowed.takeHeld n : WindowOp τ ω (Option Message)).run p = ⟨p, [], .ok none⟩ := by
      simp only [Windowed.takeHeld, ht]
    rw [Call.run_bind, hrun]
    exact hnone hfree
  · have hrun : (Windowed.takeHeld n : WindowOp τ ω (Option Message)).run p =
        ⟨{ p with window := w' }, [], .ok (some msg)⟩ := by
      simp only [Windowed.takeHeld, ht]
    rw [Call.run_bind, hrun]
    exact hsome msg w' hheld htaken

theorem ends_addU64 {f} (hE : u64Max < a + b → E p) (hf : ((f (a + b)).run p).Ends R E) :
    ((Call.lift (addU64 a b) >>= f).run p).Ends R E := by
  refine Call.ends_lift (fun c hc => ?_) fun e he => hE ?_
  · obtain ⟨-, rfl⟩ := addU64_eq_ok.mp hc
    exact hf
  · by_contra hle
    rw [addU64_eq_ok.mpr ⟨Nat.le_of_not_lt hle, rfl⟩] at he
    cases he

theorem ends_setNext {f}
    (hf : ((f ()).run { p with window := { p.window with next := some n } }).Ends R E) :
    ((Windowed.setNext n >>= f).run p).Ends R E := hf

end

/-- The loop takes what is held from `n` on, `count` numbers of it, and no more. -/
theorem releaseFrom_ends (count n : Nat) (p : Windowed τ) (h : p.window.Sound) :
    ((Windowed.releaseFrom release count n).run p).Ends
      (fun progress o p' => p.window.Emptied p'.window ∧ Goes (¬ Continues release)
        (Drained p.window n (n + count) (released o) p'.window ∧
          goOn release p.target (between p.window.msgAt n (n + count)) = some p'.target) progress)
      (fun p' => p.window.Emptied p'.window ∧ ¬ Continues release) := by
  induction count generalizing n p with
  | zero =>
    refine Call.ends_pure ⟨h.stay, .nothing fun m hlo hhi => ?_, ?_⟩
    · omega
    · rw [Nat.add_zero, between_self]
      rfl
  | succ count ih =>
    refine Call.ends_get ?_
    split
    · rename_i h0
      have hnone := h.wellFormed.not_holds h0
      refine Call.ends_pure ⟨h.stay, .nothing fun m _ _ => hnone m, ?_⟩
      rw [between_eq_nil fun m _ _ => msgAt_eq_none.mpr (hnone m)]
      rfl
    rw [Nat.add_comm count, ← Nat.add_assoc]
    refine ends_takeHeld h (fun hfree => ?_) fun msg w' hheld htaken => ?_
    · refine (ih (n + 1) p h).mono ?_ fun _ he => he
      intro _ _ _ ⟨hempty, hgoes⟩
      refine ⟨hempty, hgoes.mono fun ⟨hdrained, hgo⟩ => ⟨hdrained.skip hfree (by omega), ?_⟩⟩
      rw [between_cons (by omega), msgAt_eq_none.mpr hfree]
      exact hgo
    · have hfirst := htaken.toEmptied
      refine ends_handOn (fun t hstop => ⟨hfirst, not_continues hstop⟩)
        (fun o t hstop => Call.ends_pure ⟨hfirst, not_continues hstop⟩) fun o t ho hgo => ?_
      refine (ih (n + 1) _ hfirst.sound).mono ?_ fun _ he => ⟨hfirst.trans he.1, he.2⟩
      intro progress o' p' ⟨hempty, hgoes⟩
      have hone := htaken.drained hheld
      refine ⟨hfirst.trans hempty, hgoes.mono fun ⟨hdrained, hgo'⟩ => ⟨?_, ?_⟩⟩
      · rw [released_append, ho, htaken.number]
        exact hone.append hdrained (by omega) (by omega)
      · rw [between_cons (by omega), htaken.msgAt, goOn_append, Option.toList_some, hgo, ← hgo']
        exact congrArg _ (between_congr fun m hm => (hone.msgAt htaken.toShrunk h hm).symm)

theorem releaseThrough_ends (h : p.window.Bounded) {through} (hnext : p.window.next = some a)
    (hle : a ≤ through + 1) : ((Windowed.releaseThrough release through).run p).Ends
      (fun progress o p' => ∃ _ : Unit, p.window.Emptied p'.window ∧ Goes (¬ Continues release)
        (Drained p.window a (through + 1) (released o) p'.window ∧
          goOn release p.target (between p.window.msgAt a (through + 1)) = some p'.target) progress)
      (fun p' => p.window.Emptied p'.window ∧
        (Continues release → u64Max < a + p.window.slots.length)) := by
  refine Call.ends_get ?_
  rw [hnext]
  refine ends_addU64 (fun hover => ⟨h.sound.stay, fun _ => hover⟩) ?_
  refine (releaseFrom_ends _ a p h.sound).mono ?_ fun _ he => ⟨he.1, fun hcont => absurd hcont he.2⟩
  intro progress o p' ⟨hempty, hgoes⟩
  refine ⟨(), hempty, hgoes.mono fun ⟨hdrained, hgo⟩ => ?_⟩
  -- nothing is held beyond the window
  have hsame {m : Nat} (hm : p.window.Holds m) : (a ≤ m ∧ m < a + (min through
      (a + p.window.slots.length) + 1 - a)) ↔ a ≤ m ∧ m < through + 1 := by
    have := h.range hnext hm
    omega
  refine ⟨⟨hdrained.rising, fun m => ?_, fun m => ?_⟩, ?_⟩
  · rw [hdrained.taken]
    exact and_congr_right hsame
  · rw [hdrained.left]
    exact and_congr_right fun hm => not_congr (hsame hm)
  · rw [← hgo, ← between_append (b := a + (min through (a + p.window.slots.length) + 1 - a)) (by omega)
      (by omega), between_eq_nil (a := a + (min through (a + p.window.slots.length) + 1 - a)) fun m hlo hhi =>
        msgAt_eq_none.mpr fun hm => ?_, List.append_nil]
    have := h.range hnext hm
    omega

/-- The window has moved on from `a` to `b`, and is past all that was held there. -/
structure Advanced (w : ReorderWindow) (a b : Nat) (rs : List Nat) (w' : ReorderWindow) : Prop
    extends Drained w a b rs w' where
  last : a < b → w.Holds (b - 1)

theorem Advanced.stay (w : ReorderWindow) (a : Nat) : Advanced w a a [] w :=
  ⟨.nothing fun m hlo hhi => by omega, fun h => absurd h (Nat.lt_irrefl a)⟩

variable {rs rs' : List Nat} {c : Nat} {w₁ : ReorderWindow}

theorem Advanced.last_mem (h : Advanced w a b rs w') (hlt : a < b) : b - 1 ∈ rs :=
  (h.taken _).mpr ⟨h.last hlt, by omega, by omega⟩

theorem Advanced.trans (h : Advanced w a b rs w₁) (h' : Advanced w₁ b c rs' w') (hab : a ≤ b)
    (hbc : b ≤ c) : Advanced w a c (rs ++ rs') w' := by
  refine ⟨h.toDrained.append h'.toDrained hab hbc, fun hlt => ?_⟩
  obtain rfl | hlt' := Nat.eq_or_lt_of_le hbc
  · exact h.last hlt
  · exact ((h.left _).mp (h'.last hlt')).1

/-- Some number that is held has none after it. -/
def Last (w : ReorderWindow) : Prop := ∃ m, w.Holds m ∧ u64Max ≤ m

/-- The run of messages from `a` on goes. If `b`, which is expected next then, is held,
`release` stopped just before it. -/
structure Ran (release : Release τ ω) (p : Windowed τ) (a : Nat)
    (p' : Windowed τ) (b : Nat) : Prop extends Moved p.window a p'.window b where
  halts : p'.window.Holds b → ∃ last, Halts release p.target p.window.msgAt a a last

/-- The run has gone to its end. -/
structure RunOut (release : Release τ ω) (p : Windowed τ) (a b : Nat)
    (rs : List Nat) (p' : Windowed τ) : Prop extends Advanced p.window a b rs p'.window where
  free : ¬ p'.window.Holds b
  run : ∀ m, a ≤ m → m < b → p.window.Holds m
  target : goOn release p.target (between p.window.msgAt a b) = some p'.target

theorem Ran.stay (h : p.window.Bounded) (hnext : p.window.next = some a)
    (hfree : ¬ p.window.Holds a) : Ran release p a p a :=
  ⟨h.moved hnext h.sound.stay, fun hheld => absurd hheld hfree⟩

theorem RunOut.stay (hfree : ¬ p.window.Holds a) : RunOut release p a a [] p := by
  refine ⟨.stay _ _, hfree, fun m hlo hhi => by omega, ?_⟩
  rw [between_self]
  rfl

theorem releaseRunUpTo_ends (k : Nat) (p : Windowed τ) (h : p.window.Bounded)
    (hnext : p.window.next = some a) (hk : p.window.held ≤ k) :
    ((Windowed.releaseRunUpTo release k).run p).Ends
      (fun progress o p' => ∃ b, Ran release p a p' b ∧
        Goes (¬ Continues release) (RunOut release p a b (released o) p') progress)
      (fun p' => (∃ b, Ran release p a p' b) ∧ (Continues release → Last p.window)) := by
  induction k generalizing p a with
  | zero =>
    have hfree := h.sound.wellFormed.not_holds (Nat.le_zero.mp hk) a
    exact Call.ends_pure ⟨a, .stay h hnext hfree, .stay hfree⟩
  | succ k ih =>
    refine Call.ends_get ?_
    rw [hnext]
    refine ends_takeHeld h.sound (fun hfree => ?_) fun msg w' hheld htaken => ?_
    · exact Call.ends_pure ⟨a, .stay h hnext hfree, .stay hfree⟩
    · let w₁ : ReorderWindow := { w' with next := some (a + 1) }
      have hmoved : Moved p.window a w₁ (a + 1) := by
        refine h.movedTo hnext (Nat.le_succ a) htaken.toEmptied fun m hm => ?_
        obtain ⟨hm, hne⟩ := (htaken.holds m).mp hm
        have := (h.range hnext hm).1
        omega
      have hsub {m : Nat} (hm : w₁.Holds m) : p.window.Holds m := ((htaken.holds m).mp hm).1
      have hran (t : τ) (hstop : goOn release p.target [msg] = none) : Ran release p a ⟨w₁, t⟩ (a + 1) :=
        ⟨hmoved, fun hheld' => ⟨a, .first htaken.msgAt (isSome_msgAt.mpr (hsub hheld')) hstop⟩⟩
      refine ends_addU64 (fun hover => ⟨⟨a, h.moved hnext htaken.toEmptied, fun hagain => ?_⟩,
        fun _ => ⟨a, hheld, Nat.le_of_lt_succ hover⟩⟩) (ends_setNext ?_)
      · exact absurd rfl ((htaken.holds a).mp hagain).2
      refine ends_handOn
        (fun t hstop => ⟨⟨_, hran t hstop⟩, fun hcont => absurd hcont (not_continues hstop)⟩)
        (fun o t hstop => Call.ends_pure ⟨_, hran t hstop, not_continues hstop⟩)
        fun o t ho hgo => ?_
      have hone := htaken.drained hheld
      have hsame (m : Nat) (hm : a + 1 ≤ m) : w₁.msgAt m = p.window.msgAt m :=
        hone.msgAt htaken.toShrunk h.sound hm
      have hfirst : goOn release p.target (between p.window.msgAt a (a + 1)) = some t := by
        rw [between_cons (Nat.lt_succ_self a), htaken.msgAt, between_self]
        exact hgo
      have hless : w₁.held ≤ k := by
        have := htaken.held
        show w'.held ≤ k
        omega
      have hthen {p' : Windowed τ} {b : Nat} (hb : Ran release ⟨w₁, t⟩ (a + 1) p' b) :
          Ran release p a p' b := by
        refine ⟨hmoved.trans hb.toMoved, fun hheld' => ?_⟩
        obtain ⟨last, hlast⟩ := hb.halts hheld'
        exact ⟨last, (hlast.before (Nat.le_succ a) le_rfl hfirst hsame).cons (isSome_msgAt.mpr hheld)⟩
      refine (ih ⟨w₁, t⟩ hmoved.bounded hmoved.next hless).mono ?_
        fun p' ⟨⟨b, hb⟩, hlast⟩ => ⟨⟨b, hthen hb⟩, fun hcont => ?_⟩
      · intro progress o' p' ⟨b, hb, hgoes⟩
        refine ⟨b, hthen hb, hgoes.mono fun hout => ?_⟩
        have hle := hb.le
        rw [released_append, ho, htaken.number]
        refine ⟨⟨hone.append hout.toDrained.of_next (by omega) hle, fun _ => ?_⟩, hout.free, fun m hlo hhi => ?_, ?_⟩
        · obtain heq | hlt := Nat.eq_or_lt_of_le hle
          · rw [← heq]
            exact hheld
          · exact hsub (hout.last hlt)
        · obtain rfl | hlt := Nat.eq_or_lt_of_le hlo
          · exact hheld
          · exact hsub (hout.run m hlt hhi)
        · rw [← between_append (Nat.le_succ a) hle, goOn_append, hfirst, ← between_congr hsame]
          exact hout.target
      · obtain ⟨m, hm, hmax⟩ := hlast hcont
        exact ⟨m, hsub hm, hmax⟩

/-- The run of messages that follow one another goes, and then the next one is not held. -/
theorem releaseRun_ends (p : Windowed τ) (h : p.window.Bounded) (hnext : p.window.next = some a) :
    ((Windowed.releaseRun release).run p).Ends
      (fun progress o p' => ∃ b, Ran release p a p' b ∧
        Goes (¬ Continues release) (RunOut release p a b (released o) p') progress)
      (fun p' => (∃ b, Ran release p a p' b) ∧ (Continues release → Last p.window)) :=
  Call.ends_get (releaseRunUpTo_ends p.window.held p h hnext le_rfl)

/-! ## Expiry -/

variable {now : Instant}

/-- Something has waited too long. -/
def ReorderWindow.Waits (w : ReorderWindow) (now : Instant) : Prop :=
  ∃ x, some x ∈ w.slots ∧ x.expires ≤ now

theorem ReorderWindow.Sound.early_iff (h : w.Sound) :
    (w.earliest.all fun e => now < e) = true ↔ ¬ w.Waits now := by
  rw [h.earliest]
  cases he : w.expiries.min? with
  | none =>
    have hnil := List.min?_eq_none_iff.mp he
    refine iff_of_true rfl fun ⟨x, hx, _⟩ => ?_
    have hmem := mem_expiries.mpr ⟨x, hx, rfl⟩
    rw [hnil] at hmem
    cases hmem
  | some e =>
    obtain ⟨hin, hleast⟩ := List.min?_eq_some_iff.mp he
    obtain ⟨x, hx, hex⟩ := mem_expiries.mp hin
    simp only [Option.all_some, decide_eq_true_eq]
    constructor
    · intro hlt ⟨y, hy, hle⟩
      have hley := hleast _ (mem_expiries.mpr ⟨y, hy, rfl⟩)
      exact absurd hlt (Nat.not_lt.mpr (hley.trans hle))
    · intro hnot
      by_contra hle
      exact hnot ⟨x, hx, hex.trans_le (Nat.le_of_not_lt hle)⟩

theorem expire_early (h : p.window.Sound) (hnow : ¬ p.window.Waits now) :
    (Windowed.expire release now).run p = ⟨p, [], .ok .continue⟩ := by
  change Call.run (if (p.window.earliest.all fun e => decide (now < e)) = true then
    pure Progress.continue else _) p = _
  rw [if_pos (h.early_iff.mpr hnow)]
  rfl

theorem mem_expired :
    n ∈ (w.slots.filterMap fun s => (s.filter fun h => h.expires ≤ now).map Held.seqNum) ↔
      ∃ h, some h ∈ w.slots ∧ h.expires ≤ now ∧ h.seqNum = n := by
  rw [List.mem_filterMap]
  constructor
  · intro ⟨s, hs, hn⟩
    obtain ⟨h, hh, hseq⟩ := Option.map_eq_some_iff.mp hn
    obtain ⟨rfl, hle⟩ := Option.filter_eq_some_iff.mp hh
    exact ⟨h, hs, of_decide_eq_true hle, hseq⟩
  · intro ⟨h, hmem, hle, hseq⟩
    exact ⟨some h, hmem, by simp [Option.filter, hle, hseq]⟩

theorem expiredThrough_isSome : (w.expiredThrough now).isSome ↔ w.Waits now := by
  rw [ReorderWindow.expiredThrough, Option.isSome_iff_ne_none, ne_eq, List.max?_eq_none_iff,
    List.eq_nil_iff_forall_not_mem, not_forall_not]
  exact ⟨fun ⟨n, hn⟩ => (mem_expired.mp hn).imp fun x hx => ⟨hx.1, hx.2.1⟩,
    fun ⟨x, hx, hle⟩ => ⟨_, mem_expired.mpr ⟨x, hx, hle, rfl⟩⟩⟩

/-- What is gone is below what has waited too long. -/
theorem Drained.expiredThrough (hd : Drained w a b rs w') (hs : w.Shrunk w') (hw : w.Sound)
    (h : w'.expiredThrough now = some n) (hn : b ≤ n) : w.expiredThrough now = some n := by
  obtain ⟨hmem, hmost⟩ := List.max?_eq_some_iff.mp h
  obtain ⟨x, hx, hle, hseq⟩ := mem_expired.mp hmem
  refine List.max?_eq_some_iff.mpr ⟨mem_expired.mpr ⟨x, hs.kept x hx, hle, hseq⟩, fun m hm => ?_⟩
  obtain ⟨y, hy, hley, rfl⟩ := mem_expired.mp hm
  by_cases hlt : y.seqNum < b
  · omega
  have hheld : w'.Holds y.seqNum := (hd.left _).mpr ⟨hw.wellFormed.holds_of_mem hy, by omega⟩
  obtain ⟨z, hz, hzy⟩ := hs.sound.wellFormed.holds_iff.mp hheld
  have hslot := hw.wellFormed.slot_of_mem (hs.kept z hz)
  rw [hzy, hw.wellFormed.slot_of_mem hy] at hslot
  cases hslot
  exact hmost _ (mem_expired.mpr ⟨y, hz, hley, rfl⟩)

/-- Expiry has moved the window on to `b`. If `b` is held, `release` stopped just before it,
behind what has waited too long. -/
structure Lapsed (release : Release τ ω) (p : Windowed τ) (now : Instant)
    (a : Nat) (p' : Windowed τ) (b : Nat) : Prop extends Moved p.window a p'.window b where
  halts : ¬ p.window.Holds a → p'.window.Holds b → ∃ through last,
    p.window.expiredThrough now = some through ∧
      Halts release p.target p.window.msgAt a (through + 1) last

/-- Expiry has run to its end: nothing has waited too long any more. -/
structure Expired (w : ReorderWindow) (now : Instant) (a b : Nat) (rs : List Nat)
    (w' : ReorderWindow) : Prop extends Advanced w a b rs w' where
  due : ¬ w'.Waits now
  still : ¬ w.Waits now → b = a
  through : w.Waits now → ¬ w'.Holds b ∧ ∃ through, w.expiredThrough now = some through ∧
    through < b ∧ ∀ m, through < m → m < b → w.Holds m

theorem Expired.free (h : Expired w now a b rs w') (hfree : ¬ w.Holds a) : ¬ w'.Holds b := by
  by_cases hwait : w.Waits now
  · exact (h.through hwait).1
  · intro hheld
    rw [h.still hwait] at hheld
    exact hfree ((h.left a).mp hheld).1

theorem expire_ends (h : p.window.Bounded) (hnext : p.window.next = some a) (now : Instant) :
    ((Windowed.expire release now).run p).Ends
      (fun progress o p' => ∃ b, Lapsed release p now a p' b ∧
        Goes (¬ Continues release) (Expired p.window now a b (released o) p'.window) progress)
      (fun p' => (∃ b, Lapsed release p now a p' b) ∧ (Continues release → Last p.window ∨
        p.window.Waits now ∧ u64Max < a + p.window.slots.length)) := by
  have hkeep {p' : Windowed τ} (he : p.window.Emptied p'.window) : Lapsed release p now a p' a :=
    ⟨h.moved hnext he, fun hfree hheld => absurd (he.holds h.sound hheld) hfree⟩
  by_cases hwait : p.window.Waits now
  swap
  · rw [expire_early h.sound hwait]
    exact ⟨a, hkeep h.sound.stay, .stay _ _, hwait, fun _ => rfl, fun hnot => absurd hnot hwait⟩
  refine Call.ends_get ?_
  rw [if_neg fun hearly => h.sound.early_iff.mp hearly hwait]
  obtain ⟨through, hthrough⟩ := Option.isSome_iff_exists.mp (expiredThrough_isSome.mpr hwait)
  rw [hthrough]
  obtain ⟨hmem, hmost⟩ := List.max?_eq_some_iff.mp hthrough
  obtain ⟨y, hy, -, rfl⟩ := mem_expired.mp hmem
  have hheld := h.sound.wellFormed.holds_of_mem hy
  have hle := (h.range hnext hheld).1
  refine ends_go (releaseThrough_ends h hnext (by omega))
    (fun p' he => ⟨⟨a, hkeep he.1⟩, fun hcont => .inr ⟨hwait, he.2 hcont⟩⟩)
    (fun _ o p' he hnot => Call.ends_pure ⟨a, hkeep he, hnot⟩)
    fun _ o p₁ hempty ⟨hdrained, hgo⟩ => ?_
  have hto : Moved p.window a { p₁.window with next := some (y.seqNum + 1) } (y.seqNum + 1) := by
    refine h.movedTo hnext (by omega) hempty fun m hm => ?_
    obtain ⟨hm, hout⟩ := (hdrained.left m).mp hm
    have := (h.range hnext hm).1
    omega
  have hsame (m : Nat) (hm : y.seqNum + 1 ≤ m) : p₁.window.msgAt m = p.window.msgAt m :=
    hdrained.msgAt hempty.toShrunk h.sound hm
  refine ends_addU64 (fun hover => ⟨⟨a, hkeep hempty⟩,
    fun _ => .inl ⟨_, hheld, Nat.le_of_lt_succ hover⟩⟩) (ends_setNext ?_)
  have hthen {p' : Windowed τ} {b : Nat} (hb : Ran release
      { p₁ with window := { p₁.window with next := some (y.seqNum + 1) } } (y.seqNum + 1) p' b) :
      Lapsed release p now a p' b := by
    refine ⟨hto.trans hb.toMoved, fun _ hheld' => ?_⟩
    obtain ⟨last, hlast⟩ := hb.halts hheld'
    exact ⟨_, last, hthrough, hlast.before (by omega) le_rfl hgo hsame⟩
  refine (releaseRun_ends _ hto.bounded rfl).mono ?_
    fun p' ⟨⟨b, hb⟩, hlast⟩ => ⟨⟨b, hthen hb⟩, fun hcont => .inl ?_⟩
  · intro progress o' p' ⟨b, hb, hgoes⟩
    refine ⟨b, hthen hb, hgoes.mono fun hout => ?_⟩
    have hlt := hb.le
    rw [released_append]
    refine ⟨⟨hdrained.append hout.toDrained.of_next (by omega) hb.le, fun _ => ?_⟩, ?_,
      fun hnot => absurd hwait hnot,
      fun _ => ⟨hout.free, _, hthrough, hlt, fun m hlo hhi => ((hdrained.left m).mp (hout.run m hlo hhi)).1⟩⟩
    · obtain heq | hlt := Nat.eq_or_lt_of_le hb.le
      · rw [← heq]
        exact hheld
      · exact ((hdrained.left _).mp (hout.last hlt)).1
    · -- what is left is above the last number that has waited too long
      intro ⟨x, hx, hlate⟩
      have hx₀ := mem_expired.mpr ⟨x, hempty.kept x (hb.kept x hx), hlate, rfl⟩
      have hin := (hb.bounded.within b hb.next x hx).1
      have hbelow := hmost _ hx₀
      omega
  · obtain ⟨m, hm, hmax⟩ := hlast hcont
    exact ⟨m, ((hdrained.left m).mp hm).1, hmax⟩

end

end Babelfix.Reorder
