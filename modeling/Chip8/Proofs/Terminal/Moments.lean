import Mathlib.Data.List.Induction
import Chip8.Proofs.Terminal.Actions

namespace Chip8

inductive HostAction
  | key (name : KeyName)
  | frame
  | wait (ms : Int)
  deriving DecidableEq

def HostEvent.actions : HostEvent → List HostAction
  | .input text => (KeyName.ofString text).map .key
  | .frames n => List.replicate n .frame
  | .wait ms => [.wait ms]

def Invocation.ofProgram (image : Image) : Invocation where
  args := ["rom.ch8"]
  env _ := none
  files path :=
    if path = "rom.ch8" then
      some ⟨image, image.size, true, none, none, none, [], none, none⟩
    else none
  random := .cycle []

namespace Report

theorem empty_append (r : Report) : Report.empty ++ r = r := by
  change Report.andThen .empty r = r
  simp [andThen, empty]

theorem exit_append {r : Report} (h : r.exit = none) (r' : Report) : (r ++ r').exit = r'.exit := by
  change (Report.andThen r r').exit = r'.exit
  simp [andThen, h]

theorem exit_left_of_append {r r' : Report} (h : (r ++ r').exit = none) : r.exit = none := by
  change (Report.andThen r r').exit = none at h
  cases hr : r.exit with
  | none => rfl
  | some code => simp [andThen, hr] at h

theorem out_append {r : Report} (h : r.exit = none) (r' : Report) :
    (r ++ r').out = r.out ++ r'.out := by
  change (Report.andThen r r').out = r.out ++ r'.out
  simp [andThen, h]

end Report

namespace Host

variable {h h₀ h' h'' : Host} {as bs : List HostAction} {a : HostAction} {e : HostEvent}

def act (h : Host) : HostAction → Host × Report
  | .key name => h.onKey name
  | .frame => h.onFrame
  | .wait ms => (h.onWait ms, .empty)

inductive Reaches (h : Host) : List HostAction → Host → Prop
  | refl : Reaches h [] h
  | snoc {as : List HostAction} {h' : Host} {a : HostAction} (hr : Reaches h as h')
      (ha : (h'.act a).2.exit = none) : Reaches h (as ++ [a]) (h'.act a).1

theorem Reaches.trans (hr : h.Reaches as h') (hr' : h'.Reaches bs h'') :
    h.Reaches (as ++ bs) h'' := by
  induction hr' with
  | refl =>
    rw [List.append_nil]
    exact hr
  | snoc _ ha ih =>
    rw [← List.append_assoc]
    exact .snoc ih ha

theorem Reaches.eq_foldl (hr : h.Reaches as h') : h' = as.foldl (fun h a ↦ (h.act a).1) h := by
  induction hr with
  | refl => rfl
  | snoc _ _ ih => rw [List.foldl_append, ← ih, List.foldl_cons, List.foldl_nil]

theorem handle_eq_inTurn (h : Host) (e : HostEvent) : h.handle e = inTurn act h e.actions := by
  cases e with
  | input text => simp only [handle, HostEvent.actions, inTurn, List.foldl_map, act]
  | frames n =>
    have hr : List.replicate n HostAction.frame = (List.range n).map fun _ ↦ .frame := by
      rw [List.map_const', List.length_range]
    simp only [handle, HostEvent.actions, hr, inTurn, List.foldl_map, act]
  | wait ms =>
    have he : Report.empty.exit.isSome = false := rfl
    simp [handle, HostEvent.actions, inTurn, act, Report.empty_append, he]

theorem inTurn_concat (h : Host) (as : List HostAction) (a : HostAction)
    (he : (inTurn act h (as ++ [a])).2.exit = none) :
    (inTurn act h as).2.exit = none ∧ ((inTurn act h as).1.act a).2.exit = none ∧
      inTurn act h (as ++ [a]) =
        (((inTurn act h as).1.act a).1,
          (inTurn act h as).2 ++ ((inTurn act h as).1.act a).2) := by
  simp only [inTurn, List.foldl_append, List.foldl_cons, List.foldl_nil] at he ⊢
  generalize as.foldl _ (h, Report.empty) = p at he ⊢
  obtain ⟨h', done⟩ := p
  cases hd : done.exit with
  | some code => simp [hd] at he
  | none =>
    simp only [hd, Option.isSome_none, Bool.false_eq_true, ↓reduceIte,
      Report.exit_append hd] at he ⊢
    exact ⟨trivial, he, trivial⟩

theorem reaches_inTurn (he : (inTurn act h as).2.exit = none) :
    h.Reaches as (inTurn act h as).1 := by
  induction as using List.reverseRecOn with
  | nil => exact .refl
  | append_singleton as a ih =>
    obtain ⟨hs, ha, heq⟩ := inTurn_concat h as a he
    rw [heq]
    exact .snoc (ih hs) ha

theorem reaches_handle (he : (h.handle e).2.exit = none) :
    h.Reaches e.actions (h.handle e).1 := by
  rw [handle_eq_inTurn] at he ⊢
  exact reaches_inTurn he

def after (h : Host) (es : List HostEvent) : Host := es.foldl (fun h e ↦ (h.handle e).1) h

theorem reaches_of_run {es : List HostEvent} (he : ∀ r ∈ h.run es, r.exit = none) :
    h.Reaches (es.flatMap HostEvent.actions) (h.after es) := by
  induction es generalizing h with
  | nil => exact .refl
  | cons e es ih =>
    rw [run] at he
    by_cases hx : (h.handle e).2.exit = none
    · simp only [hx, Option.isSome_none, Bool.false_eq_true, ↓reduceIte, List.mem_cons,
        forall_eq_or_imp] at he
      exact (reaches_handle hx).trans (ih he.2)
    · have hs : (h.handle e).2.exit.isSome = true := Option.isSome_iff_ne_none.mpr hx
      simp only [hs, ↓reduceIte, List.mem_singleton, forall_eq] at he
      exact absurd he hx

structure Fresh (h : Host) : Prop where
  clock_eq : h.clock = 0
  held_eq : h.held = []
  silent : h.soundBefore = 0
  idle : h.session.machine.Idle

theorem fresh_of_start {i : Invocation} {interactive : Bool}
    (hs : (start i interactive).1 = some h) : h.Fresh := by
  unfold start at hs
  split at hs
  · cases hs
  dsimp only at hs
  split at hs
  · cases hs
  split at hs
  · cases hs
  · next s _ hl =>
    obtain ⟨drawn, hd⟩ := draw_eq ⟨_, i.files, s, 0, [], none, 0, interactive⟩ true
    obtain ⟨image, hm⟩ := Session.machine_of_load hl
    rw [Option.some.injEq, hd] at hs
    rw [← hs]
    refine { clock_eq := rfl, held_eq := rfl, silent := rfl, idle := ?_ }
    rw [hm]
    exact (Machine.idle_new _ _).start image

/-- The host at some moment of a run on the given events: after the first actions of them. -/
def Moment (i : Invocation) (interactive : Bool) (es : List HostEvent) (as : List HostAction)
    (h : Host) : Prop :=
  ∃ h₀, (start i interactive).1 = some h₀ ∧ as <+: es.flatMap HostEvent.actions ∧ h₀.Reaches as h

section Moment

variable {i : Invocation} {interactive : Bool} {es : List HostEvent}

theorem Moment.mem_actions (hm : Moment i interactive es as h) (ha : a ∈ as) :
    ∃ e ∈ es, a ∈ e.actions := by
  obtain ⟨_, -, hp, -⟩ := hm
  exact List.mem_flatMap.mp (hp.subset ha)

theorem Moment.unique (hm : Moment i interactive es as h) (hm' : Moment i interactive es as h') :
    h = h' := by
  obtain ⟨h₀, hs, -, hr⟩ := hm
  obtain ⟨_, hs', -, hr'⟩ := hm'
  obtain rfl := Option.some.inj (hs.symm.trans hs')
  rw [hr.eq_foldl, hr'.eq_foldl]

/-- What holds as a host starts, and after an action if it held before, holds at every moment. -/
theorem Moment.induct {as : List HostAction} {h : Host}
    {P : ∀ as h, Moment i interactive es as h → Prop}
    (start : ∀ h hm, h.Fresh → P [] h hm)
    (act : ∀ as h a (hm : Moment i interactive es as h) hnext, (h.act a).2.exit = none →
      P as h hm → P (as ++ [a]) (h.act a).1 hnext)
    (hm : Moment i interactive es as h) : P as h hm := by
  obtain ⟨h₀, hs, hp, hr⟩ := hm
  induction hr with
  | refl => exact start h₀ ⟨h₀, hs, hp, .refl⟩ (fresh_of_start hs)
  | @snoc as h a hr ha ih =>
    have hp' := (List.prefix_append as [a]).trans hp
    exact act as h a ⟨h₀, hs, hp', hr⟩ ⟨h₀, hs, hp, hr.snoc ha⟩ ha (ih hp')

end Moment

/-- A run that does not end the program comes to a moment after all its events. -/
theorem exists_moment (i : Invocation) (interactive : Bool) (es : List HostEvent) (P : Host → Prop)
    [DecidablePred P]
    (hq : (start i interactive).1.any fun h ↦ (h.run es).all (·.exit.isNone) && P (h.after es)) :
    ∃ h, Moment i interactive es (es.flatMap HostEvent.actions) h ∧ P h := by
  obtain ⟨h, hs, hr⟩ := (Option.any_eq_true _ _).mp hq
  obtain ⟨he, hp⟩ := Bool.and_eq_true_iff.mp hr
  refine ⟨h.after es, ⟨h, hs, List.prefix_rfl, reaches_of_run fun r hm ↦ ?_⟩, of_decide_eq_true hp⟩
  exact Option.isNone_iff_eq_none.mp (List.all_eq_true.mp he r hm)

end Host

end Chip8
