import CueSheet.Device.Journal
import CueSheet.Proofs.Device.Calls
import CueSheet.Proofs.Run.Turns

/-!
A dispatch is a course of turns, one for each command of the plan. Between two turns only the clock is
looked at and waited for; a turn executes its command once, on the registry that the turn before has
left. What goes out is what the commands are for that succeed, one after another.
-/

namespace CueSheet

variable {σ τ : Type}

namespace Dispatch

section Course

variable (rig : Rig (StateM σ) τ)

inductive Idle : σ → σ → Prop
  | rest (s : σ) : Idle s s
  | look {s s' : σ} : Idle s s' → Idle s (rig.now.run s').2
  | sleep {s s' : σ} (ns : Nat) : Idle s s' → Idle s ((rig.sleep ns).run s').2

inductive Course : Registry τ → σ → List (Turn σ τ) → Registry τ → σ → Prop
  | quiet {r : Registry τ} {s s' : σ} : Idle rig s s' → Course r s [] r s'
  | turn {s s' : σ} {t : Turn σ τ} {ts : List (Turn σ τ)} {r' : Registry τ} :
    Idle rig s t.world → Course (t.outcome rig).1.2 (t.outcome rig).2 ts r' s' →
    Course t.registry s (t :: ts) r' s'

variable {rig} {r r' r'' : Registry τ} {s s' s'' : σ} {ts ts' : List (Turn σ τ)}

theorem Idle.trans (h : Idle rig s s') (h' : Idle rig s' s'') : Idle rig s s'' := by
  induction h' with
  | rest => exact h
  | look _ ih => exact ih.look
  | sleep ns _ ih => exact ih.sleep ns

theorem Course.after (h : Course rig r s' ts r' s'') (hidle : Idle rig s s') :
    Course rig r s ts r' s'' := by
  cases h with
  | quiet h' => exact .quiet (hidle.trans h')
  | turn h' hrest => exact .turn (hidle.trans h') hrest

theorem Course.append (h : Course rig r s ts r' s') (h' : Course rig r' s' ts' r'' s'') :
    Course rig r s (ts ++ ts') r'' s'' := by
  induction h with
  | quiet hidle => exact h'.after hidle
  | turn hidle _ ih => exact .turn hidle (ih h')

theorem idle_waitUntil (due : Nat) (s : σ) : Idle rig s ((waitUntil rig due).run s).2 := by
  have hlook : Idle rig s (rig.now.run s).2 := (Idle.rest s).look
  rw [waitUntil_run]
  by_cases hlt : (rig.now.run s).1 < due
  · rw [if_pos hlt]
    exact hlook.sleep _
  · rw [if_neg hlt]
    exact hlook

theorem idle_await (due : Nat) (s : σ) : Idle rig s ((await rig due).run s).2 :=
  (idle_waitUntil due s).look

variable (rig)

theorem course_commands (started : Nat) (cs : List Command) (r : Registry τ) (s : σ)
    (report : Report) :
    let y := (commands rig started cs r report).run s
    Course rig r s (turns rig started cs r s) y.1.1 y.2 := by
  induction cs generalizing r s report with
  | nil => exact .quiet (.rest s)
  | cons c cs ih =>
    rw [commands_cons]
    exact .turn (t := turn rig started c r s) (idle_await _ s) (ih _ _ _)

theorem course_timeline (t : Timeline) (r : Registry τ) (s : σ) (report : Report) :
    let y := (timeline rig t r report).run s
    Course rig r s (timelineTurns rig t r s) y.1.1 y.2 := by
  rw [timeline_run]
  have hbody := course_commands rig (rig.now.run s).1 t.commands r (rig.now.run s).2 report
  have hhold := hbody.append
    (.quiet (idle_waitUntil ((rig.now.run s).1 + nanos t.duration) _))
  rw [List.append_nil] at hhold
  exact hhold.after (Idle.rest s).look

theorem course_timelines (ts : List PlannedTimeline) (r : Registry τ) (s : σ) (report : Report) :
    let y := (timelines rig ts r report).run s
    Course rig r s (timelinesTurns rig ts r s) y.1.1 y.2 := by
  induction ts generalizing r s report with
  | nil => exact .quiet (.rest s)
  | cons t ts ih =>
    obtain ⟨hregistry, hworld⟩ := timeline_report rig t.timeline r s report {}
    rw [timelines_cons, timelinesTurns]
    dsimp only
    rw [← hregistry, ← hworld]
    exact (course_timeline rig t.timeline r s report).append (ih _ _ _)

theorem course_run (p : Plan) (r : Registry τ) (s : σ) :
    let y := (run rig p r).run s
    Course rig r s (planTurns rig p r s) y.1.1 y.2 := by
  rw [run_run]
  have hall := (course_timelines rig p.timelines r (rig.now.run s).2 {}).append
    (.quiet (Idle.rest _).look)
  rw [List.append_nil] at hall
  exact hall.after (Idle.rest s).look

end Course

section Counts

variable (rig : Rig (StateM σ) τ)

theorem commands_counts (started : Nat) (cs : List Command) (r : Registry τ) (s : σ)
    (report : Report) :
    let y := (commands rig started cs r report).run s
    y.1.2.timelines = report.timelines ∧ y.1.2.commands = report.commands + cs.length := by
  induction cs generalizing r s report with
  | nil => exact ⟨rfl, rfl⟩
  | cons c cs ih =>
    rw [commands_cons]
    obtain ⟨htimelines, hcommands⟩ := ih _ _ _
    refine ⟨htimelines, hcommands.trans ?_⟩
    simp only [counted, List.length_cons]
    omega

theorem timelines_counts (ts : List PlannedTimeline) (r : Registry τ) (s : σ) (report : Report) :
    let y := (timelines rig ts r report).run s
    y.1.2.timelines = report.timelines + ts.length ∧
      y.1.2.commands = report.commands + (ts.flatMap (·.timeline.commands)).length := by
  induction ts generalizing r s report with
  | nil => exact ⟨rfl, rfl⟩
  | cons t ts ih =>
    rw [timelines_cons]
    obtain ⟨htimelines, hcommands⟩ := ih ((timeline rig t.timeline r report).run s).1.1
      ((timeline rig t.timeline r report).run s).2 ((timeline rig t.timeline r report).run s).1.2
    obtain ⟨hown, howns⟩ := commands_counts rig (rig.now.run s).1 t.timeline.commands r
      (rig.now.run s).2 report
    refine ⟨htimelines.trans ?_, hcommands.trans ?_⟩
    · rw [timeline_run]
      dsimp only
      rw [hown, List.length_cons]
      omega
    · rw [timeline_run]
      dsimp only
      rw [howns, List.flatMap_cons, List.length_append]
      omega

end Counts

end Dispatch

/-- What reached a port, or a line that was printed: written, and flushed. -/
inductive Output
  | sent (port : Option Nat) (text : String)
  | shown (line : String)
deriving DecidableEq, Repr

namespace Journal

def outputs : Journal → List Output
  | [] => []
  | .port number (.wrote text (.ok ())) :: j => .sent number text :: outputs j
  | .printed line (.ok ()) :: .flushed (.ok ()) :: j => .shown line :: outputs j
  | _ :: j => outputs j

theorem outputs_append (j : Journal) {ds : Journal} (h : ∀ answer, ds.head? ≠ some (.flushed answer)) :
    outputs (j ++ ds) = outputs j ++ outputs ds := by
  fun_induction outputs j with
  | case1 => rfl
  | case2 number text j ih => rw [List.cons_append, outputs, ih, List.cons_append]
  | case3 line j ih => rw [List.cons_append, List.cons_append, outputs, ih, List.cons_append]
  | case4 d j hport hline ih =>
    rw [List.cons_append, outputs, ih]
    · exact hport
    · rintro line j' rfl hj
      cases j with
      | nil =>
        rw [List.nil_append] at hj
        exact h (.ok ()) (by rw [hj]; rfl)
      | cons x j =>
        rw [List.cons_append, List.cons.injEq] at hj
        exact hline line j rfl (by rw [hj.1])

def Puts (os : List Output) (j j' : Journal) : Prop :=
  ∃ ds, j' = j ++ ds ∧ (∀ answer, ds.head? ≠ some (.flushed answer)) ∧ outputs ds = os

variable {j j' j'' : Journal} {os os' : List Output}

theorem Puts.outputs_eq (h : Puts os j j') : outputs j' = outputs j ++ os := by
  obtain ⟨ds, rfl, hhead, rfl⟩ := h
  exact outputs_append j hhead

theorem Puts.refl (j : Journal) : Puts [] j j := ⟨[], by simp, by simp, rfl⟩

theorem Puts.trans (h : Puts os j j') (h' : Puts os' j' j'') : Puts (os ++ os') j j'' := by
  obtain ⟨ds, rfl, hhead, rfl⟩ := h
  obtain ⟨ds', rfl, hhead', rfl⟩ := h'
  refine ⟨ds ++ ds', by simp, fun answer => ?_, outputs_append ds hhead'⟩
  cases ds with
  | nil => exact hhead' answer
  | cons d ds => exact hhead answer

theorem puts_one {d : Deed} (h : ∀ answer, d ≠ .flushed answer) : Puts (outputs [d]) j (j ++ [d]) :=
  ⟨[d], rfl, by simpa using h, rfl⟩

end Journal

def Output.granted {ε : Type} (os : List Output) : Except ε Unit → List Output
  | .ok _ => os
  | .error _ => []

theorem Output.granted_mapError {ε ε' : Type} (os : List Output) (result : Except ε Unit)
    (f : ε → ε') : granted os (result.mapError f) = granted os result := by
  cases result <;> rfl

namespace Instance

open Journal (Puts)
open Output (granted)

/-- What a command puts out that succeeds: a text for the port, a line, or nothing. -/
def effect (w : World) (args : List Value) (j : Journal) : Instance Plug → List Output
  | .transport t => [.sent t.port.number ((args.head?.bind Value.text?).getD "")]
  | .print format => (w.stamp j format).elim [] fun stamp => [.shown (lineOf stamp args)]
  | .wait => []

variable {w : World} {name : String} {args : List Value} {j : Journal}

theorem puts_line (w : World) (line : String) (j : Journal) :
    let y := (w.rig.print line).run j
    let z := (match y.1 with
      | .error e => return .error e
      | .ok () => w.rig.flush : StateM Journal IoResult).run y.2
    Puts (granted [.shown line] z.1) j z.2 := by
  have hprint : (w.rig.print line).run j =
      (w.prints j line, j ++ [.printed line (w.prints j line)]) := rfl
  rw [hprint]
  cases w.prints j line with
  | error e => exact Journal.puts_one (by simp)
  | ok _ =>
    dsimp only
    have hflush : w.rig.flush.run (j ++ [.printed line (.ok ())]) =
        (w.flushes (j ++ [.printed line (.ok ())]), j ++ [.printed line (.ok ())] ++
          [.flushed (w.flushes (j ++ [.printed line (.ok ())]))]) := rfl
    rw [hflush]
    generalize w.flushes (j ++ [.printed line (.ok ())]) = answer
    refine ⟨[.printed line (.ok ()), .flushed answer], by simp, by simp, ?_⟩
    cases answer <;> rfl

theorem puts_printLine (w : World) (args : List Value) (format : String) (j : Journal) :
    let y := (printLine w.rig format args).run j
    Puts (granted (effect w args j (.print format)) y.1) j y.2 := by
  have hstamp : Puts [] j (j ++ [.stamped format (w.stamp j format)]) := Journal.puts_one (by simp)
  have hrun : (w.rig.stamp format).run j =
      (w.stamp j format, j ++ [.stamped format (w.stamp j format)]) := rfl
  rw [effect]
  generalize j ++ [.stamped format (w.stamp j format)] = j' at hstamp hrun
  cases htext : w.stamp j format with
  | none =>
    rw [htext] at hrun
    rw [printLine_unwritten hrun]
    exact hstamp
  | some text =>
    rw [htext] at hrun
    rw [printLine_run hrun]
    exact hstamp.trans (puts_line w (lineOf text args) j')

theorem puts_execute (w : World) (name : String) (args : List Value) (i : Instance Plug)
    (j : Journal) :
    let y := (i.execute w.rig name args).run j
    Puts (granted (i.effect w args j) y.1.1) j y.2 := by
  cases i with
  | print format =>
    rw [execute_print]
    dsimp only
    rw [Output.granted_mapError]
    exact puts_printLine w args format j
  | wait =>
    cases hns : pause? ((args.head?.bind Value.number?).getD 0) with
    | none =>
      simp only [execute, hns]
      exact .refl j
    | some ns =>
      simp only [execute, hns]
      exact Journal.puts_one (by simp)
  | transport t =>
    cases hopen : t.isOpen with
    | false =>
      rw [execute_closed hopen]
      exact .refl j
    | true =>
      rw [execute_transport hopen]
      dsimp only
      rw [Output.granted_mapError, effect]
      generalize (args.head?.bind Value.text?).getD "" = text
      have hsend : (w.rig.send text t.port).run j = ((w.takes j t.port text, t.port),
          j ++ [.port t.port.number (.wrote text (w.takes j t.port text))]) := rfl
      rw [hsend]
      generalize w.takes j t.port text = answer
      refine ⟨[.port t.port.number (.wrote text answer)], rfl, by simp, ?_⟩
      cases answer <;> rfl

end Instance

namespace Turn

open Journal (Puts)

variable (w : World)

def output (t : Turn Journal Plug) : List Output :=
  match t.registry.entry? t.command.device with
  | none => []
  | some e => Output.granted (e.unit.effect w t.command.params t.world) (t.outcome w.rig).1.1

theorem puts_outcome (t : Turn Journal Plug) :
    Puts (t.output w) t.world (t.outcome w.rig).2 := by
  cases he : t.registry.entry? t.command.device with
  | none =>
    have houtcome : (t.outcome w.rig).2 = t.world := by
      simp only [outcome, Registry.execute, he]
      rfl
    rw [houtcome, output, he]
    exact .refl _
  | some e =>
    simp only [output, he, outcome, Registry.execute_run he]
    exact Instance.puts_execute w e.name t.command.params e.unit t.world

end Turn

namespace Dispatch

open Journal (Puts)

variable {w : World}

theorem Idle.puts {j j' : Journal} (h : Idle w.rig j j') : Puts [] j j' := by
  induction h with
  | rest => exact .refl j
  | look _ ih => exact ih.trans (Journal.puts_one (by simp))
  | sleep ns _ ih => exact ih.trans (Journal.puts_one (by simp))

theorem Course.puts {r r' : Registry Plug} {j j' : Journal} {ts : List (Turn Journal Plug)}
    (h : Course w.rig r j ts r' j') : Puts (ts.flatMap (Turn.output w)) j j' := by
  induction h with
  | quiet hidle => exact hidle.puts
  | @turn j j' t ts r' hidle _ ih =>
    rw [List.flatMap_cons]
    exact (hidle.puts.trans (t.puts_outcome w)).trans ih

/-- A run gives every command of the plan one turn, in the order of the plan, whatever fails on the
way. It counts the turns and the refusals among them, and what it puts out are the outputs of the
turns in their order. -/
theorem run_exact (w : World) (p : Plan) (r : Registry Plug) (j : Journal) :
    let y := (run w.rig p r).run j
    ∃ ts : List (Turn Journal Plug), Course w.rig r j ts y.1.1 y.2 ∧
      ts.map (·.command) = p.commands ∧
      y.1.2.timelines = p.timelines.length ∧ y.1.2.commands = p.commandCount ∧
      y.1.2.suppressed = ts.countP (·.isRefused w.rig) ∧
      y.2.outputs = j.outputs ++ ts.flatMap (Turn.output w) := by
  have hcourse := course_run w.rig p r j
  obtain ⟨htimelines, hcommands⟩ := timelines_counts w.rig p.timelines r (w.rig.now.run j).2 {}
  refine ⟨planTurns w.rig p r j, hcourse, planTurns_command w.rig p r j, ?_, ?_,
    run_suppressed w.rig p r j, hcourse.puts.outputs_eq⟩
  · exact htimelines.trans (Nat.zero_add _)
  · exact hcommands.trans (Nat.zero_add _)

end Dispatch

end CueSheet
