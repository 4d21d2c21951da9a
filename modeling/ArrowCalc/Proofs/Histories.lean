import ArrowCalc.Scopes
import Mathlib.Data.List.Basic
import Mathlib.Data.List.Induction

/-!
# Histories of scopes

A name is looked up by nesting: the innermost frame that binds it decides. The same can be said by
time: the latest binding of the name decides, among those whose frame is still there. The two agree
because only the innermost frame ever changes, so what was bound later is never further outside.

A history is a list of actions. The frame that is innermost at some point is kept by the actions
behind it if, at no point among them, more frames were removed than added. All of nesting is said
with this one notion: a binding is live if its frame is kept by what follows, and a run of actions
is balanced if it keeps the frame that it found and leaves no other one behind.

A frame that is removed was added before, and what happened in between is balanced. So every history
is made by single actions that remove nothing, and by frames that are added, used and removed. The
main result follows by induction on this shape (`Scopes.history_induction`).

## Main definitions

* `Scopes.Action`, `Scopes.run` — what can be done with scopes, and histories of it
* `Scopes.Keeps`, `Scopes.Balanced` — histories and the frame that they find
* `Scopes.latest?` — the latest live binding of a name

## Main results

* `Scopes.run_push_eq` — a frame stays where it is as long as it is kept
* `Scopes.resolve?_run` — looking up by nesting is looking up by time
* `Scopes.resolves_latest_binding` — the same, from the history alone
-/

namespace ArrowCalc

namespace Scopes

/-! ### Actions -/

/-- What can be done with scopes. -/
inductive Action where
  | declare (name : String) (value : Value)
  | push (frame : Frame)
  | pop
  | resolve (name : String)

namespace Action

/-- The scopes behind an action. Looking a name up changes nothing. -/
def act : Action → Scopes → Scopes
  | declare name value, s => s.declare name value
  | push frame, s => s.push frame
  | pop, s => s.pop
  | resolve _, s => s

/-- The value that an action binds to a name. -/
def bound? : Action → String → Option Value
  | declare name value, x => if x = name then some value else none
  | push frame, x => frame.find? x
  | pop, _ => none
  | resolve _, _ => none

/-- Whether an action adds a frame. -/
def isPush : Action → Bool
  | push _ => true
  | _ => false

/-- Whether an action removes a frame. -/
def isPop : Action → Bool
  | pop => true
  | _ => false

@[simp] theorem isPush_push (frame : Frame) : (push frame).isPush = true := rfl

@[simp] theorem isPop_push (frame : Frame) : (push frame).isPop = false := rfl

@[simp] theorem isPush_pop : pop.isPush = false := rfl

@[simp] theorem isPop_pop : pop.isPop = true := rfl

theorem eq_pop_of_isPop {a : Action} (h : a.isPop) : a = pop := by
  cases a with
  | pop => rfl
  | _ => cases h

theorem exists_eq_push_of_isPush {a : Action} (h : a.isPush) : ∃ frame, a = push frame := by
  cases a with
  | push frame => exact ⟨frame, rfl⟩
  | _ => cases h

/-- What an action that removes nothing binds is found first. -/
theorem resolve?_act {a : Action} (h : a.isPop = false) (s : Scopes) (x : String) :
    (a.act s).resolve? x = (a.bound? x).or (s.resolve? x) := by
  cases a with
  | declare name value =>
    by_cases hx : x = name
    · subst hx
      simp [act, bound?]
    · simp [act, bound?, hx, resolve?_declare_of_ne s value hx]
  | push frame => exact resolve?_push s frame x
  | pop => cases h
  | resolve _ => rfl

end Action

open Scopes.Action

/-- The scopes behind a history. -/
def run (s : Scopes) (as : List Action) : Scopes := as.foldl (fun s a => a.act s) s

theorem run_append (s : Scopes) (as bs : List Action) : run s (as ++ bs) = run (run s as) bs :=
  List.foldl_append

theorem run_concat (s : Scopes) (as : List Action) (a : Action) :
    run s (as ++ [a]) = a.act (run s as) := by
  rw [run_append]
  rfl

/-- The number of frames that are added. -/
def pushes (as : List Action) : ℕ := as.countP isPush

/-- The number of frames that are removed. -/
def pops (as : List Action) : ℕ := as.countP isPop

@[simp] theorem pushes_nil : pushes [] = 0 := rfl

@[simp] theorem pops_nil : pops [] = 0 := rfl

@[simp] theorem pushes_append (as bs : List Action) :
    pushes (as ++ bs) = pushes as + pushes bs := List.countP_append

@[simp] theorem pops_append (as bs : List Action) : pops (as ++ bs) = pops as + pops bs :=
  List.countP_append

@[simp] theorem pushes_cons (a : Action) (as : List Action) :
    pushes (a :: as) = pushes as + a.isPush.toNat := by
  cases h : a.isPush <;> simp [pushes, h]

@[simp] theorem pops_cons (a : Action) (as : List Action) :
    pops (a :: as) = pops as + a.isPop.toNat := by
  cases h : a.isPop <;> simp [pops, h]

theorem pushes_concat (as : List Action) (a : Action) :
    pushes (as ++ [a]) = pushes as + a.isPush.toNat := by simp

theorem pops_concat (as : List Action) (a : Action) :
    pops (as ++ [a]) = pops as + a.isPop.toNat := by simp

/-- Frames are removed only while there is more than the global one. -/
def Allowed : Scopes → List Action → Prop
  | _, [] => True
  | s, a :: as => (a.isPop → 1 < s.depth) ∧ Allowed (a.act s) as

theorem allowed_append {s : Scopes} {as bs : List Action} :
    Allowed s (as ++ bs) ↔ Allowed s as ∧ Allowed (run s as) bs := by
  induction as generalizing s with
  | nil => exact (and_iff_right trivial).symm
  | cons a as ih => rw [List.cons_append, Allowed, Allowed, ih, and_assoc]; rfl

theorem depth_act {a : Action} {s : Scopes} (h : a.isPop → 1 < s.depth) :
    (a.act s).depth + a.isPop.toNat = s.depth + a.isPush.toNat := by
  cases a with
  | declare name value => exact depth_declare s name value
  | push frame => rfl
  | pop =>
    have hdepth := h rfl
    obtain ⟨_ | ⟨f, locals⟩, globals⟩ := s
    · exact absurd hdepth (Nat.lt_irrefl 1)
    · rfl
  | resolve _ => rfl

/-- The frames are those at the beginning and those added, without those removed. -/
theorem Allowed.depth_run {s : Scopes} {as : List Action} (h : Allowed s as) :
    (run s as).depth + pops as = s.depth + pushes as := by
  induction as generalizing s with
  | nil => rfl
  | cons a as ih =>
    have hstep := depth_act h.1
    have hrest := ih h.2
    rw [pushes_cons, pops_cons]
    show (run (a.act s) as).depth + _ = _
    omega

/-! ### Keeping a frame -/

/-- The frame that is innermost before the actions is not removed by them: at no point were more
frames removed than added. -/
def Keeps (as : List Action) : Prop := ∀ n, pops (as.take n) ≤ pushes (as.take n)

/-- The frame that is innermost before the actions is the innermost one again, and was kept. -/
def Balanced (as : List Action) : Prop := Keeps as ∧ pops as = pushes as

theorem keeps_nil : Keeps [] := by
  intro n
  simp

theorem Keeps.pops_le {as : List Action} (h : Keeps as) : pops as ≤ pushes as := by
  have hall := h as.length
  rwa [List.take_length] at hall

theorem Keeps.of_append {as bs : List Action} (h : Keeps (as ++ bs)) : Keeps as := by
  intro n
  have hn := h (min n as.length)
  rwa [List.take_append_of_le_length (Nat.min_le_right _ _), ← List.take_eq_take_min] at hn

theorem Keeps.append {as bs : List Action} (h : Keeps as) (h' : Keeps bs) : Keeps (as ++ bs) := by
  intro n
  have hleft := h n
  have hright := h' (n - as.length)
  rw [List.take_append, pops_append, pushes_append]
  omega

theorem Keeps.append_iff {as bs : List Action} (h : Keeps bs) : Keeps (as ++ bs) ↔ Keeps as :=
  ⟨Keeps.of_append, fun has => has.append h⟩

/-- Where nothing is left of what was added, the next frame removed is the one that was found. -/
theorem not_keeps_concat_pop {as : List Action} (h : pushes as ≤ pops as) :
    ¬ Keeps (as ++ [.pop]) := by
  intro hkeeps
  have hle : pops as + 1 ≤ pushes as := by simpa using hkeeps.pops_le
  omega

/-- A single action that removes nothing. -/
theorem keeps_singleton {a : Action} (h : a.isPop = false) : Keeps [a] := by
  intro n
  cases n <;> simp [h]

theorem balanced_nil : Balanced [] := ⟨keeps_nil, rfl⟩

theorem balanced_singleton {a : Action} (hpush : a.isPush = false) (hpop : a.isPop = false) :
    Balanced [a] :=
  ⟨keeps_singleton hpop, by simp [hpush, hpop]⟩

theorem Balanced.append {as bs : List Action} (h : Balanced as) (h' : Balanced bs) :
    Balanced (as ++ bs) := by
  refine ⟨h.1.append h'.1, ?_⟩
  rw [pops_append, pushes_append, h.2, h'.2]

/-- A frame that is added, used and removed. -/
def block (frame : Frame) (mid : List Action) : List Action := .push frame :: (mid ++ [.pop])

theorem Balanced.block {mid : List Action} (h : Balanced mid) (frame : Frame) :
    Balanced (block frame mid) := by
  refine ⟨fun n => ?_, by simp [Scopes.block, h.2]⟩
  cases n with
  | zero => simp
  | succ n =>
    -- the frame on top is one in advance, which pays for the last action
    have hmid := h.1 n
    have hlast : pops (List.take (n - mid.length) [Action.pop]) ≤ 1 :=
      Nat.le_trans List.countP_le_length (List.length_take_le' _ _)
    rw [Scopes.block, List.take_succ_cons, List.take_append]
    simp only [pops_cons, pushes_cons, pops_append, pushes_append, isPop_push, isPush_push,
      Bool.toNat_true, Bool.toNat_false]
    omega

/-- What is added in the rest of a balanced history is removed in it. -/
theorem Balanced.pushes_le_of_suffix {as bs : List Action} (h : Balanced as) (hbs : bs <:+ as) :
    pushes bs ≤ pops bs := by
  obtain ⟨before, rfl⟩ := hbs
  have hbefore := h.1.of_append.pops_le
  have htotal := h.2
  rw [pops_append, pushes_append] at htotal
  omega

/-- A frame on top of `s` stays where it is as long as it is kept. -/
theorem run_push_eq {as : List Action} (h : Keeps as) (s : Scopes) (frame : Frame) :
    ∃ upper, upper.length + pops as = pushes as + 1 ∧
      run (s.push frame) as = ⟨upper ++ s.locals, s.globals⟩ := by
  induction as using List.reverseRecOn with
  | nil => exact ⟨[frame], rfl, rfl⟩
  | append_singleton as a ih =>
    obtain ⟨upper, hlength, hrun⟩ := ih h.of_append
    have hbefore := h.of_append.pops_le
    have hkept := h.pops_le
    rw [pops_concat, pushes_concat] at hkept ⊢
    rw [run_concat, hrun]
    -- the frame itself is among the upper ones, so there is an innermost one
    obtain _ | ⟨inner, upper⟩ := upper
    · rw [List.length_nil] at hlength
      omega
    rw [List.length_cons] at hlength
    cases a with
    | declare name value => exact ⟨inner.insert name value :: upper, hlength, rfl⟩
    | push frame =>
      refine ⟨frame :: inner :: upper, ?_, rfl⟩
      show upper.length + 1 + 1 + (pops as + 0) = pushes as + 1 + 1
      omega
    | pop =>
      refine ⟨upper, ?_, rfl⟩
      show upper.length + (pops as + 1) = pushes as + 0 + 1
      omega
    | resolve _ => exact ⟨inner :: upper, hlength, rfl⟩

/-- When a frame is removed, all is as it was before it was added. -/
theorem Balanced.run_block {mid : List Action} (h : Balanced mid) (s : Scopes) (frame : Frame) :
    run s (Scopes.block frame mid) = s := by
  obtain ⟨upper, hlength, hrun⟩ := run_push_eq h.1 s frame
  have hblock : run s (Scopes.block frame mid) = (run (s.push frame) mid).pop :=
    run_concat (s.push frame) mid .pop
  rw [h.2] at hlength
  obtain ⟨inner, rfl⟩ := List.length_eq_one_iff.mp (show upper.length = 1 by omega)
  rw [hblock, hrun]
  rfl

/-! ### The shape of histories -/

/-- A frame that is not removed yet was added, and what happened since is balanced. -/
theorem exists_block {as : List Action} (h : Keeps as) (hlt : pops as < pushes as) :
    ∃ before frame mid, as = before ++ .push frame :: mid ∧ Balanced mid := by
  induction hn : as.length using Nat.strongRecOn generalizing as with
  | ind n ih =>
    obtain rfl | ⟨as, a, rfl⟩ := as.eq_nil_or_concat'
    · cases hlt
    subst hn
    have hshort : as.length < (as ++ [a]).length := by simp
    rw [pops_concat, pushes_concat] at hlt
    cases hpush : a.isPush with
    | true =>
      obtain ⟨frame, rfl⟩ := exists_eq_push_of_isPush hpush
      exact ⟨as, frame, [], rfl, balanced_nil⟩
    | false =>
      rw [hpush, Bool.toNat_false] at hlt
      obtain ⟨before, frame, mid, rfl, hmid⟩ := ih _ hshort h.of_append (by omega) rfl
      cases hpop : a.isPop with
      | false =>
        exact ⟨before, frame, mid ++ [a], by simp, hmid.append (balanced_singleton hpush hpop)⟩
      | true =>
        -- the action ends this block, and in front of the block a frame is still there
        obtain rfl := eq_pop_of_isPop hpop
        have hlt' : pops before < pushes before := by
          have heq := hmid.2
          simp only [pops_append, pushes_append, pops_cons, pushes_cons, isPop_pop, isPop_push,
            isPush_push, Bool.toNat_true, Bool.toNat_false] at hlt
          omega
        obtain ⟨before', frame', mid', rfl, hmid'⟩ :=
          ih _ (by simp) h.of_append.of_append hlt' rfl
        exact ⟨before', frame', mid' ++ block frame mid, by simp [block],
          hmid'.append (hmid.block frame)⟩

/-- Histories are made by actions that remove nothing, and by frames that are added and removed. -/
theorem history_induction {P : List Action → Prop} (nil : P [])
    (single : ∀ as a, a.isPop = false → P as → P (as ++ [a]))
    (nested : ∀ as frame mid, Balanced mid → P as → P (as ++ block frame mid))
    (as : List Action) (h : Keeps as) : P as := by
  induction hn : as.length using Nat.strongRecOn generalizing as with
  | ind n ih =>
    obtain rfl | ⟨as, a, rfl⟩ := as.eq_nil_or_concat'
    · exact nil
    subst hn
    cases hpop : a.isPop with
    | false => exact single as a hpop (ih _ (by simp) _ h.of_append rfl)
    | true =>
      obtain rfl := eq_pop_of_isPop hpop
      have hkept : pops as + 1 ≤ pushes as := by simpa using h.pops_le
      obtain ⟨before, frame, mid, rfl, hmid⟩ := exists_block h.of_append (by omega)
      have hshape : before ++ .push frame :: mid ++ [.pop] = before ++ block frame mid := by
        simp [block]
      rw [hshape] at h ih ⊢
      exact nested before frame mid hmid (ih _ (by simp [block]) _ h.of_append rfl)

/-! ### The latest binding -/

instance (as : List Action) : Decidable (Keeps as) :=
  decidable_of_iff (∀ n < as.length + 1, pops (as.take n) ≤ pushes (as.take n)) <| by
    refine ⟨fun h n => ?_, fun h n _ => h n⟩
    by_cases hn : n < as.length + 1
    · exact h n hn
    · have hall := h as.length (Nat.lt_succ_self _)
      rw [List.take_length] at hall
      rwa [List.take_of_length_le (by omega)]

/-- The latest value that was bound to a name in a frame that is still there. -/
def latest? (x : String) : List Action → Option Value
  | [] => none
  | a :: after => (latest? x after).or (if Keeps after then a.bound? x else none)

theorem latest?_concat (x : String) (as : List Action) {a : Action} (h : a.isPop = false) :
    latest? x (as ++ [a]) = (a.bound? x).or (latest? x as) := by
  induction as with
  | nil => simp [latest?, keeps_nil]
  | cons b as ih =>
    rw [List.cons_append, latest?, latest?, ih, Option.or_assoc]
    simp only [(keeps_singleton h).append_iff]

/-- In a block that is over nothing is live: its frame was removed at the end. -/
theorem latest?_concat_pop (x : String) {as : List Action}
    (h : ∀ bs, bs <:+ as → pushes bs ≤ pops bs) : latest? x (as ++ [.pop]) = none := by
  induction as with
  | nil => rfl
  | cons a as ih =>
    have hnot := not_keeps_concat_pop (h as (List.suffix_cons a as))
    rw [List.cons_append, latest?, ih fun bs hbs => h bs (hbs.trans (List.suffix_cons a as)),
      if_neg hnot]
    rfl

theorem latest?_append_block (x : String) (as : List Action) (frame : Frame) {mid : List Action}
    (h : Balanced mid) : latest? x (as ++ block frame mid) = latest? x as := by
  induction as with
  | nil =>
    have hnot := not_keeps_concat_pop (Nat.le_of_eq h.2.symm)
    show (latest? x (mid ++ [.pop])).or (if Keeps (mid ++ [.pop]) then frame.find? x else none) =
      none
    rw [latest?_concat_pop x fun bs hbs => h.pushes_le_of_suffix hbs, if_neg hnot, Option.or_none]
  | cons a as ih =>
    rw [List.cons_append, latest?, latest?, ih]
    simp only [(h.block frame).1.append_iff]

/-- Looking up by nesting is looking up by time. -/
theorem resolve?_run {as : List Action} (h : Keeps as) (x : String) :
    (run empty as).resolve? x = latest? x as := by
  refine history_induction (P := fun as => (run empty as).resolve? x = latest? x as) rfl ?_ ?_ as h
  · intro as a ha ih
    rw [run_concat, resolve?_act ha, ih, latest?_concat x as ha]
  · intro as frame mid hmid ih
    rw [run_append, hmid.run_block, ih, latest?_append_block x as frame hmid]

/-- No binding of the name is in a frame that is still there. -/
def NoneLive (x : String) (as : List Action) : Prop :=
  ∀ before a after, as = before ++ a :: after → Keeps after → a.bound? x = none

theorem latest?_eq_none_iff {x : String} {as : List Action} :
    latest? x as = none ↔ NoneLive x as := by
  induction as with
  | nil => simp [latest?, NoneLive]
  | cons b as ih =>
    rw [latest?, Option.or_eq_none_iff, ih]
    constructor
    · rintro ⟨hrest, hfirst⟩ before a after heq hkeeps
      cases before with
      | nil =>
        obtain ⟨rfl, rfl⟩ := List.cons.inj heq
        rwa [if_pos hkeeps] at hfirst
      | cons c before => exact hrest before a after (List.cons.inj heq).2 hkeeps
    · intro h
      refine ⟨fun before a after heq => h (b :: before) a after (by rw [heq]; rfl), ?_⟩
      split
      · next hkeeps => exact h [] b as rfl hkeeps
      · rfl

theorem latest?_eq_some_iff {x : String} {v : Value} {as : List Action} :
    latest? x as = some v ↔ ∃ before a after, as = before ++ a :: after ∧ a.bound? x = some v ∧
      Keeps after ∧ NoneLive x after := by
  induction as with
  | nil => simp [latest?]
  | cons b as ih =>
    rw [latest?, Option.or_eq_some_iff, ih, latest?_eq_none_iff]
    constructor
    · rintro (⟨before, a, after, rfl, h⟩ | ⟨hnone, hfirst⟩)
      · exact ⟨b :: before, a, after, rfl, h⟩
      · split at hfirst
        · next hkeeps => exact ⟨[], b, as, rfl, hfirst, hkeeps, hnone⟩
        · cases hfirst
    · rintro ⟨before, a, after, heq, hbound, hkeeps, hnone⟩
      cases before with
      | nil =>
        obtain ⟨rfl, rfl⟩ := List.cons.inj heq
        exact .inr ⟨hnone, by rwa [if_pos hkeeps]⟩
      | cons c before =>
        exact .inl ⟨before, a, after, (List.cons.inj heq).2, hbound, hkeeps, hnone⟩

/-- What may be done to fresh scopes never removes the global frame. -/
theorem Allowed.keeps {as : List Action} (h : Allowed empty as) : Keeps as := by
  intro n
  rw [← List.take_append_drop n as, allowed_append] at h
  have hdepth := h.1.depth_run
  rw [depth_empty, depth] at hdepth
  omega

/-- **Names resolve to their latest live binding.** In every history on fresh scopes that never
removes the global frame, the number of frames is one more than were added and not removed. A name
has the value of its latest binding, by a declaration or by an added frame, whose frame was not
removed since, and it has none if there is no such binding. When a frame is added, anything balanced
is done, and the frame is removed, every name has the value that it had before. -/
theorem resolves_latest_binding {as : List Action} (h : Allowed empty as) :
    (run empty as).depth + pops as = 1 + pushes as ∧
      (∀ x v, (run empty as).resolve? x = some v ↔
        ∃ before a after, as = before ++ a :: after ∧ a.bound? x = some v ∧ Keeps after ∧
          NoneLive x after) ∧
      (∀ x, (run empty as).resolve? x = none ↔ NoneLive x as) ∧
      ∀ before frame mid, as = before ++ .push frame :: (mid ++ [.pop]) → Balanced mid →
        ∀ x, (run empty as).resolve? x = (run empty before).resolve? x := by
  refine ⟨h.depth_run, fun x v => ?_, fun x => ?_, ?_⟩
  · rw [resolve?_run h.keeps, latest?_eq_some_iff]
  · rw [resolve?_run h.keeps, latest?_eq_none_iff]
  · rintro before frame mid rfl hmid x
    rw [run_append]
    exact congrArg (resolve? · x) (hmid.run_block _ frame)

/-- A name is declared and hidden by a frame, and another one is declared again inside. When the
frame is gone, both mean what they meant before. -/
theorem resolves_latest_binding_shadowing :
    let f : Value := .func [] (.int 1)
    let g : Value := .func [] (.int 2)
    let before : List Action := [.declare "x" f, .declare "y" g]
    let mid : List Action := [.declare "y" f, .resolve "y"]
    let as := before ++ .push (Frame.ofList [("x", g)]) :: (mid ++ [.pop])
    Allowed empty as ∧ Balanced mid ∧ (run empty as).depth = 1 ∧
      (run empty as).resolve? "x" = some f ∧ (run empty as).resolve? "z" = none ∧
      ∀ x, (run empty as).resolve? x = (run empty before).resolve? x := by
  intro f g before mid as
  have hallowed : Allowed empty as := by
    simp [as, before, mid, Allowed, act, isPop]
  have hmid : Balanced mid := ⟨by decide, rfl⟩
  obtain ⟨hdepth, hsome, hnone, hblock⟩ := resolves_latest_binding hallowed
  refine ⟨hallowed, hmid, Nat.add_right_cancel hdepth, (hsome "x" f).mpr ?_, (hnone "z").mpr ?_,
    hblock before _ mid rfl hmid⟩
  · exact ⟨[], _, as.tail, rfl, rfl, by decide, latest?_eq_none_iff.mp rfl⟩
  · exact latest?_eq_none_iff.mp rfl

end Scopes

end ArrowCalc
