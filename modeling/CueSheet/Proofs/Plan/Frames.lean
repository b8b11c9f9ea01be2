import CueSheet.Registry
import Mathlib.Data.List.Infix

/-!
Frames as one. Two frames of a chain, one right behind the other, do what a single frame does, so that a
chain of any depth stands for one bind; and calls that have all returned leave the chain as it was.
-/

namespace CueSheet

namespace Bind

/-- The new devices of the inner pairs go on through `outer`. Behind them stand the pairs of `outer`
itself, for the devices that the inner frame leaves alone. -/
def compose (outer inner : Bind) : Bind := inner.map (fun x => (x.1, outer.apply x.2)) ++ outer

def merge : List Bind → Bind
  | [] => []
  | inner :: outer => compose (merge outer) inner

theorem apply_compose (outer inner : Bind) (d : DeviceId) :
    (compose outer inner).apply d = outer.apply (inner.apply d) := by
  have hfirst : (inner.map fun x => (x.1, outer.apply x.2)).find? (·.1 = d) =
      (inner.find? (·.1 = d)).map fun x => (x.1, outer.apply x.2) := List.find?_map
  rw [apply, compose, List.find?_append, hfirst]
  cases hinner : inner.find? (·.1 = d) with
  | none => simp [apply, hinner]
  | some x => simp [apply, hinner]

end Bind

namespace Chain

theorem resolve_append (bs bs' : List Bind) (d : DeviceId) :
    (⟨bs ++ bs'⟩ : Chain).resolve d = (⟨bs'⟩ : Chain).resolve ((⟨bs⟩ : Chain).resolve d) :=
  List.foldl_append

theorem resolve_compose (before after : List Bind) (inner outer : Bind) (d : DeviceId) :
    (⟨before ++ inner :: outer :: after⟩ : Chain).resolve d =
      (⟨before ++ Bind.compose outer inner :: after⟩ : Chain).resolve d := by
  rw [resolve_append, resolve_append]
  generalize (⟨before⟩ : Chain).resolve d = x
  change (⟨after⟩ : Chain).resolve (outer.apply (inner.apply x)) =
    (⟨after⟩ : Chain).resolve ((Bind.compose outer inner).apply x)
  rw [Bind.apply_compose]

theorem resolve_eq_merge (bs : List Bind) (d : DeviceId) :
    (⟨bs⟩ : Chain).resolve d = (Bind.merge bs).apply d := by
  induction bs generalizing d with
  | nil => rfl
  | cons b bs ih =>
    rw [Bind.merge, Bind.apply_compose]
    exact ih (b.apply d)

/-- Of two pairs for one device the first one counts, and a frame without pairs is no obstacle. -/
example : Bind.merge [[(⟨1, 0⟩, ⟨2, 0⟩), (⟨1, 0⟩, ⟨3, 0⟩)], [], [(⟨2, 0⟩, ⟨4, 0⟩)]] =
    [(⟨1, 0⟩, ⟨4, 0⟩), (⟨1, 0⟩, ⟨3, 0⟩), (⟨2, 0⟩, ⟨4, 0⟩)] := by decide

inductive Move
  | push (b : Bind)
  | pop

namespace Move

def isPush : Move → Bool
  | .push _ => true
  | .pop => false

def apply (c : Chain) : Move → Chain
  | .push b => c.push b
  | .pop => c.pop

def pushes (ms : List Move) : Nat := ms.countP isPush

def pops (ms : List Move) : Nat := ms.countP (!isPush ·)

theorem pushes_concat (ms : List Move) (m : Move) :
    pushes (ms ++ [m]) = pushes ms + if m.isPush then 1 else 0 := by
  rw [pushes, List.countP_append, List.countP_singleton, pushes]

theorem pops_concat (ms : List Move) (m : Move) :
    pops (ms ++ [m]) = pops ms + if m.isPush then 0 else 1 := by
  rw [pops, List.countP_append, List.countP_singleton, pops]
  cases m <;> rfl

/-- In no beginning of the sequence more is taken off than was put on, and in the whole of it as much. -/
structure Balanced (ms : List Move) : Prop where
  covered : ∀ before ∈ ms.inits, pops before ≤ pushes before
  level : pops ms = pushes ms

end Move

def after (c : Chain) (ms : List Move) : Chain := ms.foldl Move.apply c

variable {c : Chain} {ms : List Move}

theorem after_concat (c : Chain) (ms : List Move) (m : Move) :
    c.after (ms ++ [m]) = m.apply (c.after ms) := List.foldl_append

theorem exists_frames_after (h : ∀ before ∈ ms.inits, Move.pops before ≤ Move.pushes before) :
    ∃ top, (c.after ms).frames = top ++ c.frames ∧ top.length + Move.pops ms = Move.pushes ms := by
  induction ms using List.reverseRecOn with
  | nil => exact ⟨[], rfl, rfl⟩
  | append_singleton ms m ih =>
    have hinit : ∀ before ∈ ms.inits, Move.pops before ≤ Move.pushes before := by
      intro before hbefore
      have hpre : before <+: ms := (List.mem_inits _ _).1 hbefore
      exact h before ((List.mem_inits _ _).2 (hpre.trans (List.prefix_append ms [m])))
    obtain ⟨top, htop, hlength⟩ := ih hinit
    have hlast := h (ms ++ [m]) ((List.mem_inits _ _).2 (List.prefix_refl _))
    rw [Move.pops_concat, Move.pushes_concat] at hlast ⊢
    rw [after_concat]
    cases m with
    | push b =>
      refine ⟨b :: top, congrArg (b :: ·) htop, ?_⟩
      simp only [Move.isPush, if_true, List.length_cons]
      omega
    | pop =>
      simp only [Move.isPush, Bool.false_eq_true, if_false] at hlast ⊢
      cases top with
      | nil =>
        simp only [List.length_nil] at hlength
        omega
      | cons b top =>
        refine ⟨top, congrArg List.tail htop, ?_⟩
        rw [List.length_cons] at hlength
        omega

theorem Move.Balanced.after_eq (h : Move.Balanced ms) (c : Chain) : c.after ms = c := by
  obtain ⟨top, htop, hlength⟩ := exists_frames_after (c := c) h.covered
  have hlevel := h.level
  have hempty : top = [] := List.eq_nil_of_length_eq_zero (by omega)
  rw [hempty, List.nil_append] at htop
  exact congrArg Chain.mk htop

/-- Any two neighbouring frames may be replaced by their composition, and all frames of a chain by one;
what was pushed and popped again is without effect. -/
theorem frames_compose :
    (∀ (before after : List Bind) (inner outer : Bind) (d : DeviceId),
      (⟨before ++ inner :: outer :: after⟩ : Chain).resolve d =
        (⟨before ++ Bind.compose outer inner :: after⟩ : Chain).resolve d) ∧
      (∀ (c : Chain) (d : DeviceId), c.resolve d = (Bind.merge c.frames).apply d) ∧
      ∀ (c : Chain) (ms : List Move), Move.Balanced ms → ∀ d, (c.after ms).resolve d = c.resolve d := by
  refine ⟨resolve_compose, fun c d => resolve_eq_merge c.frames d, fun c ms h d => ?_⟩
  rw [h.after_eq c]

/-- A call and two calls within it, while another one is in force. -/
theorem frames_compose_nestedCalls :
    let c : Chain := ⟨[[(⟨1, 0⟩, ⟨0, 0⟩)]]⟩
    let ms : List Move :=
      [.push [(⟨2, 0⟩, ⟨1, 0⟩)], .push [], .pop, .push [(⟨3, 0⟩, ⟨2, 0⟩)], .pop, .pop]
    Move.Balanced ms ∧ ∀ d, (c.after ms).resolve d = c.resolve d :=
  have hms : Move.Balanced [.push [(⟨2, 0⟩, ⟨1, 0⟩)], .push [], .pop, .push [(⟨3, 0⟩, ⟨2, 0⟩)], .pop,
      .pop] := ⟨by decide, by decide⟩
  ⟨hms, frames_compose.2.2 _ _ hms⟩

end Chain

end CueSheet
