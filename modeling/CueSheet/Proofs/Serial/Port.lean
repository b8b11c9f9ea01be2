import CueSheet.Proofs.Device.Calls
import CueSheet.Serial.Host

/-!
A device on a serial port. It keeps an account of whether it is open, and its port another one, of whether
it holds a file; over any host, and whatever is done with the device, the two agree. Between an open and
the next close all texts go to one file, each with the end of line behind it.
-/

namespace CueSheet

variable {h : Type} {w : Host h}

namespace SerialPort

def line (config : SerialConfig) (text : String) : List UInt8 :=
  text.toUTF8.toList ++ config.newLine.toUTF8.toList

def late (ms : Nat) : IoError := .other s!"write took longer than {ms} ms"

def overdue (config : SerialConfig) (ns : Nat) : IoResult :=
  match config.writeTimeout with
  | some ms => if ns > ms * 1000000 then .error (late ms) else .ok ()
  | none => .ok ()

structure Handing (f : h) (bytes : List UInt8) (ds : List (HostCall h)) : Prop where
  target : ∀ d ∈ ds, ∀ file, d.target? = some file → file = f
  handed : (∀ d ∈ ds, d.refusal? = none) → ds.flatMap HostCall.bytes = bytes

variable {p : SerialPort h} {f : h} {d : HostCall h} {ds ds' : List (HostCall h)}
  {bytes bytes' : List UInt8}

section Handing

theorem Handing.single (htarget : ∀ file, d.target? = some file → file = f)
    (hbytes : d.refusal? = none → d.bytes = bytes) : Handing f bytes [d] where
  target := by simpa using htarget
  handed := by simpa using hbytes

theorem Handing.of_quiet (h : ∀ d ∈ ds, d.target? = none ∧ d.bytes = []) : Handing f [] ds where
  target d hd file hfile := by
    rw [(h d hd).1] at hfile
    cases hfile
  handed _ := List.flatMap_eq_nil_iff.2 fun d hd => (h d hd).2

theorem Handing.append (h : Handing f bytes ds) (h' : Handing f bytes' ds') :
    Handing f (bytes ++ bytes') (ds ++ ds') where
  target := List.forall_mem_append.2 ⟨h.target, h'.target⟩
  handed hrefusal := by
    obtain ⟨hds, hds'⟩ := List.forall_mem_append.1 hrefusal
    rw [List.flatMap_append, h.handed hds, h'.handed hds']

theorem handing_wrote (f : h) (b : List UInt8) : Handing f b [.wrote f b (.ok ())] :=
  .single (by simp [HostCall.target?]) fun _ => rfl

theorem handing_refused (f : h) (b : List UInt8) (e : IoError) :
    Handing f bytes [.wrote f b (.error e)] :=
  .single (by simp [HostCall.target?]) fun hrefusal => by cases hrefusal

theorem handing_looked (f : h) (ns : Nat) : Handing f [] [.looked ns] :=
  .of_quiet (by simp [HostCall.target?, HostCall.bytes])

theorem handing_flushed (f : h) (answer : IoResult) : Handing f [] [.flushed f answer] :=
  .of_quiet (by simp [HostCall.target?, HostCall.bytes])

end Handing

theorem writeAll_cons (w : Host h) (f : h) (b : List UInt8) (r : List (List UInt8))
    (j : List (HostCall h)) : (writeAll w.files f (b :: r)).run j =
      match w.takes j f b with
      | .error e => (.error e, j ++ [.wrote f b (.error e)])
      | .ok () => (writeAll w.files f r).run (j ++ [.wrote f b (.ok ())]) := by
  rw [writeAll, StateT.run_bind, w.write_run, pure_bind]
  cases w.takes j f b <;> rfl

theorem writeAll_run (w : Host h) (f : h) (bs : List (List UInt8)) (j : List (HostCall h)) :
    ∃ answer ds, (writeAll w.files f bs).run j = (answer, j ++ ds) ∧ Handing f bs.flatten ds ∧
      ∀ e, answer = .error e → ∃ d ∈ ds, d.refusal? = some e := by
  induction bs generalizing j with
  | nil =>
    refine ⟨_, _, rfl, handing_flushed f _, fun e he => ⟨_, List.mem_singleton_self _, ?_⟩⟩
    rw [he]
    rfl
  | cons b r ih =>
    rw [writeAll_cons]
    cases w.takes j f b with
    | error e =>
      refine ⟨_, _, rfl, handing_refused f b e, fun e' he => ⟨_, List.mem_singleton_self _, ?_⟩⟩
      cases he
      rfl
    | ok _ =>
      obtain ⟨answer, ds, hrun, hhanding, hblamed⟩ := ih (j ++ [.wrote f b (.ok ())])
      refine ⟨answer, _, by rw [hrun, List.append_assoc], (handing_wrote f b).append hhanding, ?_⟩
      intro e he
      obtain ⟨d, hd, hrefusal⟩ := hblamed e he
      exact ⟨d, List.mem_append_right _ hd, hrefusal⟩

theorem send_some (text : String) (hf : p.file = some f) (j : List (HostCall h)) :
    (w.rig.send text p).run j =
      let y := (writeAll w.files f [text.toUTF8.toList, p.config.newLine.toUTF8.toList]).run
        (j ++ [.looked (w.clock j)])
      match y.1 with
      | .error e => ((.error e, p), y.2)
      | .ok () =>
        ((overdue p.config (w.clock y.2 - w.clock j), p), y.2 ++ [.looked (w.clock y.2)]) := by
  change (send w.files w.console.now text p).run j = _
  rw [send, hf]
  dsimp only
  rw [StateT.run_bind, w.now_run, pure_bind, StateT.run_bind]
  generalize (writeAll w.files f _).run _ = y
  obtain ⟨result, j'⟩ := y
  cases result with
  | error e => rfl
  | ok _ =>
    change StateT.run (w.console.now >>= _) j' = _
    rw [StateT.run_bind, w.now_run, pure_bind, overdue]
    cases p.config.writeTimeout with
    | none => rfl
    | some ms =>
      dsimp only
      split <;> rfl

theorem overdue_eq_error {config : SerialConfig} {ns : Nat} {e : IoError}
    (h : overdue config ns = .error e) : ∃ ms, config.writeTimeout = some ms ∧ e = late ms := by
  rw [overdue] at h
  cases ht : config.writeTimeout with
  | none => simp [ht] at h
  | some ms =>
    simp only [ht] at h
    split at h
    · exact ⟨ms, rfl, (Except.error.inj h).symm⟩
    · cases h

theorem send_run (text : String) (hf : p.file = some f) (j : List (HostCall h)) :
    ∃ answer ds, (w.rig.send text p).run j = ((answer, p), j ++ ds) ∧
      Handing f (line p.config text) ds ∧ ∀ e, answer = .error e →
        (∃ d ∈ ds, d.refusal? = some e) ∨ ∃ ms, p.config.writeTimeout = some ms ∧ e = late ms := by
  obtain ⟨answer, ds, hrun, hhanding, hblamed⟩ := writeAll_run w f
    [text.toUTF8.toList, p.config.newLine.toUTF8.toList] (j ++ [.looked (w.clock j)])
  have hline : [text.toUTF8.toList, p.config.newLine.toUTF8.toList].flatten = line p.config text := by
    simp [line]
  rw [hline] at hhanding
  have hstarted := (handing_looked f (w.clock j)).append hhanding
  rw [send_some text hf, hrun]
  cases answer with
  | error e =>
    refine ⟨_, _, by rw [List.append_assoc], hstarted, fun e' he => .inl ?_⟩
    obtain ⟨d, hd, hrefusal⟩ := hblamed e' he
    exact ⟨d, List.mem_append_right _ hd, hrefusal⟩
  | ok _ =>
    dsimp only
    generalize w.clock (j ++ [.looked (w.clock j)] ++ ds) = finished
    have hfinished := hstarted.append (handing_looked f finished)
    rw [List.append_nil] at hfinished
    exact ⟨overdue p.config (finished - w.clock j), _, by simp only [List.append_assoc], hfinished,
      fun e he => .inr (overdue_eq_error he)⟩

theorem openPort_none (hf : p.file = none) (j : List (HostCall h)) :
    (w.rig.openPort p).run j =
      match w.opens j p.config.port with
      | .error e => ((.error e, p), j ++ [.opened p.config.port (.error e)])
      | .ok f => ((.ok (), { p with file := some f }), j ++ [.opened p.config.port (.ok f)]) := by
  change (openPort w.files p).run j = _
  simp only [openPort, hf, Option.isSome_none, Bool.false_eq_true, if_false]
  rw [StateT.run_bind, w.openFile_run, pure_bind]
  cases w.opens j p.config.port <;> rfl

theorem closePort_some (hf : p.file = some f) (j : List (HostCall h)) :
    (w.rig.closePort p).run j =
      ((w.flushes j f, { p with file := none }), j ++ [.flushed f (w.flushes j f)]) := by
  change (closePort w.files p).run j = _
  rw [closePort, hf]
  dsimp only
  rw [StateT.run_bind, w.flush_run, pure_bind]
  rfl

end SerialPort

namespace Instance

inductive Operation
  | openPort
  | execute (name : String) (args : List Value)
  | closePort

namespace Operation

def run {m : Type → Type} [Monad m] {τ : Type} (rig : Rig m τ) :
    Operation → Instance τ → m (Except DeviceError Unit × Instance τ)
  | .openPort, i => i.openPort rig
  | .execute name args, i => i.execute rig name args
  | .closePort, i => i.closePort rig

def line (config : SerialConfig) : Operation → List UInt8
  | .execute _ args => SerialPort.line config ((args.head?.bind Value.text?).getD "")
  | _ => []

end Operation

/-- What an operation on an open or a closed device comes to: its answer, the device afterwards, and the
calls of the host. -/
inductive Effect (t : Transport (SerialPort h)) :
    Operation → Except DeviceError Unit → Transport (SerialPort h) → List (HostCall h) → Prop
  | opened (hf : t.port.file = none) (f : h) :
    Effect t .openPort (.ok ()) { t with port := { t.port with file := some f }, isOpen := true }
      [.opened t.port.config.port (.ok f)]
  | notOpened (hf : t.port.file = none) (e : IoError) :
    Effect t .openPort (.error (.io t.name e)) { t with isOpen := false }
      [.opened t.port.config.port (.error e)]
  | openBefore {f : h} (hf : t.port.file = some f) : Effect t .openPort (.ok ()) t []
  | sent {f : h} (hf : t.port.file = some f) (name : String) (args : List Value) {answer : IoResult}
    {ds : List (HostCall h)}
    (hhanding : SerialPort.Handing f ((Operation.execute name args).line t.port.config) ds)
    (hblamed : ∀ e, answer = .error e → (∃ d ∈ ds, d.refusal? = some e) ∨
      ∃ ms, t.port.config.writeTimeout = some ms ∧ e = SerialPort.late ms) :
    Effect t (.execute name args) (answer.mapError (.io name)) t ds
  | unsent (hf : t.port.file = none) (name : String) (args : List Value) :
    Effect t (.execute name args) (.error (.io name .transportClosed)) t []
  | closed {f : h} (hf : t.port.file = some f) (answer : IoResult) :
    Effect t .closePort (answer.mapError (.io t.name))
      { t with port := { t.port with file := none }, isOpen := false } [.flushed f answer]
  | closedBefore (hf : t.port.file = none) : Effect t .closePort (.ok ()) t []

section Effect

variable {t t' : Transport (SerialPort h)} {op : Operation} {answer : Except DeviceError Unit}
  {f : h} {ds : List (HostCall h)}

theorem exists_effect (w : Host h) (op : Operation) (hagrees : t.isOpen = t.port.file.isSome)
    (j : List (HostCall h)) : ∃ answer t' ds,
      (op.run w.rig (.transport t)).run j = ((answer, .transport t'), j ++ ds) ∧
      Effect t op answer t' ds := by
  -- the two accounts agree, so it is decided by the file alone which way the device goes
  cases hf : t.port.file with
  | none =>
    have hclosed : t.isOpen = false := by rw [hagrees, hf]; rfl
    cases op with
    | openPort =>
      rw [Operation.run, openPort_transport hclosed, SerialPort.openPort_none hf]
      cases w.opens j t.port.config.port with
      | error e => exact ⟨_, _, _, rfl, .notOpened hf e⟩
      | ok f => exact ⟨_, _, _, rfl, .opened hf f⟩
    | execute name args =>
      rw [Operation.run, execute_closed hclosed]
      exact ⟨_, _, [], by rw [List.append_nil], .unsent hf name args⟩
    | closePort =>
      rw [Operation.run, closePort_closed hclosed]
      exact ⟨_, _, [], by rw [List.append_nil], .closedBefore hf⟩
  | some f =>
    have hopen : t.isOpen = true := by rw [hagrees, hf]; rfl
    cases op with
    | openPort =>
      rw [Operation.run, openPort_open hopen]
      exact ⟨_, _, [], by rw [List.append_nil], .openBefore hf⟩
    | execute name args =>
      obtain ⟨answer, ds, hrun, hhanding, hblamed⟩ :=
        SerialPort.send_run (w := w) ((args.head?.bind Value.text?).getD "") hf j
      rw [Operation.run, execute_transport hopen, hrun]
      exact ⟨_, _, ds, rfl, .sent hf name args hhanding hblamed⟩
    | closePort =>
      rw [Operation.run, closePort_transport hopen, SerialPort.closePort_some hf]
      exact ⟨_, _, _, rfl, .closed hf _⟩

theorem Effect.config (heffect : Effect t op answer t' ds) : t'.port.config = t.port.config := by
  cases heffect <;> rfl

theorem Effect.agrees (heffect : Effect t op answer t' ds) (hagrees : t.isOpen = t.port.file.isSome) :
    t'.isOpen = t'.port.file.isSome := by
  cases heffect with
  | opened hf f | closed hf answer => rfl
  | notOpened hf e => exact (congrArg Option.isSome hf).symm
  | openBefore hf | sent hf | unsent hf | closedBefore hf => exact hagrees

theorem Effect.opened_mem (heffect : Effect t op answer t' ds) (hf' : t'.port.file = some f) :
    t.port.file = some f ∨ .opened t.port.config.port (.ok f) ∈ ds := by
  cases heffect with
  | opened hf f' =>
    cases hf'
    exact .inr (List.mem_singleton_self _)
  | closed hf answer => cases hf'
  | notOpened hf e => exact .inl hf'
  | openBefore hf | sent hf | unsent hf | closedBefore hf => exact .inl hf'

theorem Effect.lasts (heffect : Effect t op answer t' ds) (hop : op ≠ .closePort)
    (hf : t.port.file = some f) : t'.port.file = some f := by
  cases heffect with
  | opened hnone | notOpened hnone =>
    rw [hnone] at hf
    cases hf
  | closed | closedBefore => exact (hop rfl).elim
  | openBefore | sent | unsent => exact hf

theorem Effect.quiet (heffect : Effect t op answer t' ds) (hop : ∀ name args, op ≠ .execute name args) :
    ∀ d ∈ ds, d.target? = none ∧ d.bytes = [] := by
  cases heffect with
  | opened | notOpened | closed => simp [HostCall.target?, HostCall.bytes]
  | openBefore | closedBefore => simp
  | sent _ name args | unsent _ name args => exact (hop name args rfl).elim

theorem Effect.handing (heffect : Effect t op answer t' ds) (hf : t.port.file = some f) :
    SerialPort.Handing f (op.line t.port.config) ds := by
  cases op with
  | openPort | closePort => exact .of_quiet (heffect.quiet (by simp))
  | execute name args =>
    cases heffect with
    | sent hfile _ _ hhanding =>
      cases hfile.symm.trans hf
      exact hhanding
    | unsent hnone =>
      rw [hnone] at hf
      cases hf

theorem Effect.blamed (heffect : Effect t op answer t' ds) {name : String}
    (hanswer : answer = .error (.io name .portClosed)) :
    ∃ d ∈ ds, d.refusal? = some .portClosed := by
  cases heffect with
  | notOpened hf e =>
    cases hanswer
    exact ⟨_, List.mem_singleton_self _, rfl⟩
  | @sent f hf name args answer ds hhanding hblamed =>
    cases answer with
    | ok _ => cases hanswer
    | error e =>
      cases hanswer
      rcases hblamed _ rfl with hrefused | ⟨ms, -, hlate⟩
      · exact hrefused
      · cases hlate
  | closed hf answer =>
    cases answer with
    | ok _ => cases hanswer
    | error e =>
      cases hanswer
      exact ⟨_, List.mem_singleton_self _, rfl⟩
  | opened | openBefore | unsent | closedBefore => cases hanswer

theorem Effect.openPort_failed (heffect : Effect t .openPort answer t' ds) (hanswer : answer ≠ .ok ()) :
    t'.isOpen = false ∧ t'.port.file = none := by
  cases heffect with
  | opened | openBefore => exact (hanswer rfl).elim
  | notOpened hf e => exact ⟨rfl, hf⟩

theorem Effect.openPort_unrefused (heffect : Effect t .openPort answer t' ds)
    (hrefusal : ∀ d ∈ ds, d.refusal? = none) : ∃ f, t'.port.file = some f := by
  cases heffect with
  | opened hf f => exact ⟨f, rfl⟩
  | notOpened hf e => cases hrefusal _ (List.mem_singleton_self _)
  | openBefore hf => exact ⟨_, hf⟩

theorem Effect.closePort_shut (heffect : Effect t .closePort answer t' ds)
    (hagrees : t.isOpen = t.port.file.isSome) : t'.isOpen = false ∧ t'.port.file = none := by
  cases heffect with
  | closed => exact ⟨rfl, rfl⟩
  | closedBefore hf => exact ⟨by rw [hagrees, hf]; rfl, hf⟩

end Effect

end Instance

structure Wired (h : Type) where
  device : Instance (SerialPort h)
  calls : List (HostCall h)

namespace Wired

open Instance

def new (w : Host h) (name : String) (config : SerialConfig) : Wired h where
  device := .transport { name := name, config := config, port := w.rig.port config }
  calls := []

def answer (w : Host h) (x : Wired h) (op : Operation) : Except DeviceError Unit :=
  ((op.run w.rig x.device).run x.calls).1.1

def apply (w : Host h) (x : Wired h) (op : Operation) : Wired h :=
  let y := (op.run w.rig x.device).run x.calls
  { device := y.1.2, calls := y.2 }

def run (w : Host h) (x : Wired h) (ops : List Operation) : Wired h := ops.foldl (apply w) x

/-- The device is `t`, on a port with these settings; it counts as open if the port holds a file, and this
is one that the host opened at the path of the port. -/
structure Sound (config : SerialConfig) (x : Wired h) (t : Transport (SerialPort h)) : Prop where
  device : x.device = .transport t
  settings : t.port.config = config
  agrees : t.isOpen = t.port.file.isSome
  opened : ∀ f, t.port.file = some f → .opened config.port (.ok f) ∈ x.calls

variable {config : SerialConfig} {x : Wired h} {t : Transport (SerialPort h)} {f : h}
  {op : Operation} {ops : List Operation}

theorem sound_new (w : Host h) (name : String) (config : SerialConfig) :
    Sound config (new w name config) { name := name, config := config, port := w.rig.port config } where
  device := rfl
  settings := rfl
  agrees := rfl
  opened f hf := by cases hf

theorem Sound.apply (hsound : Sound config x t) (w : Host h) (op : Operation) : ∃ t' ds,
    x.apply w op = ⟨.transport t', x.calls ++ ds⟩ ∧ Effect t op (x.answer w op) t' ds ∧
      Sound config (x.apply w op) t' := by
  obtain ⟨answer, t', ds, hrun, heffect⟩ := exists_effect w op hsound.agrees x.calls
  have happly : x.apply w op = ⟨.transport t', x.calls ++ ds⟩ := by
    rw [Wired.apply, hsound.device, hrun]
  have hanswer : x.answer w op = answer := by rw [Wired.answer, hsound.device, hrun]
  refine ⟨t', ds, happly, hanswer ▸ heffect, ?_⟩
  rw [happly]
  refine ⟨rfl, heffect.config.trans hsound.settings, heffect.agrees hsound.agrees, fun f hf => ?_⟩
  rcases heffect.opened_mem hf with hbefore | hnow
  · exact List.mem_append_left _ (hsound.opened f hbefore)
  · rw [hsound.settings] at hnow
    exact List.mem_append_right _ hnow

/-- As long as an open device is not closed, all texts go to the file that it has. -/
theorem Sound.run (hsound : Sound config x t) (w : Host h) (ops : List Operation) : ∃ t' ds,
    x.run w ops = ⟨.transport t', x.calls ++ ds⟩ ∧ Sound config (x.run w ops) t' ∧
      ∀ f, t.port.file = some f → .closePort ∉ ops → t'.port.file = some f ∧
        SerialPort.Handing f (ops.flatMap (Operation.line config)) ds := by
  induction ops generalizing x t with
  | nil =>
    refine ⟨t, [], ?_, hsound, fun f hf _ => ⟨hf, .of_quiet (by simp)⟩⟩
    rw [List.append_nil, ← hsound.device]
    rfl
  | cons op ops ih =>
    obtain ⟨t₁, ds₁, happly, heffect, hsound₁⟩ := hsound.apply w op
    obtain ⟨t₂, ds₂, hrun, hsound₂, hlasts⟩ := ih hsound₁
    rw [happly, List.append_assoc, ← happly] at hrun
    refine ⟨t₂, ds₁ ++ ds₂, hrun, hsound₂, fun f hf hops => ?_⟩
    have hop : op ≠ .closePort := (List.ne_of_not_mem_cons hops).symm
    obtain ⟨hf₂, hrest⟩ := hlasts f (heffect.lasts hop hf) (List.not_mem_of_not_mem_cons hops)
    have hhanding := heffect.handing hf
    rw [hsound.settings] at hhanding
    exact ⟨hf₂, hhanding.append hrest⟩

theorem Sound.between (hsound : Sound config x t) (w : Host h) (hops : .closePort ∉ ops) :
    ∃ t' ds last, x.run w (.openPort :: ops) = ⟨.transport t', x.calls ++ ds⟩ ∧
      (x.run w (.openPort :: ops ++ [.closePort])).calls = x.calls ++ (ds ++ last) ∧
      ((∀ d ∈ ds, d.refusal? = none) → ∃ f, t'.port.file = some f ∧
        (∀ d ∈ ds ++ last, ∀ file, d.target? = some file → file = f) ∧
        (ds ++ last).flatMap HostCall.bytes = ops.flatMap (Operation.line config)) := by
  obtain ⟨t₁, ds₁, happly, hopen, hsound₁⟩ := hsound.apply w .openPort
  obtain ⟨t₂, ds₂, hrun, hsound₂, hlasts⟩ := hsound₁.run w ops
  obtain ⟨t₃, last, hclosed, hclose, -⟩ := hsound₂.apply w .closePort
  have hall : (x.run w (.openPort :: ops ++ [.closePort])).calls = x.calls ++ (ds₁ ++ ds₂ ++ last) := by
    rw [Wired.run, List.foldl_append]
    change (((x.apply w .openPort).run w ops).apply w .closePort).calls = _
    rw [hclosed, hrun, happly, ← List.append_assoc, ← List.append_assoc]
  rw [happly, List.append_assoc, ← happly] at hrun
  refine ⟨t₂, ds₁ ++ ds₂, last, hrun, hall, fun hrefusal => ?_⟩
  obtain ⟨f, hf⟩ := hopen.openPort_unrefused (List.forall_mem_append.1 hrefusal).1
  obtain ⟨hf₂, hhanding₂⟩ := hlasts f hf hops
  have hopened : SerialPort.Handing f [] ds₁ := .of_quiet (hopen.quiet (by simp))
  have hhanding := hopened.append hhanding₂
  have hlast := hclose.quiet (by simp)
  refine ⟨f, hf₂, (hhanding.append (.of_quiet hlast)).target, ?_⟩
  -- the last flush may be refused, but no bytes are left by then
  rw [List.flatMap_append, hhanding.handed hrefusal,
    List.flatMap_eq_nil_iff.2 fun d hd => (hlast d hd).2]
  exact List.append_nil _

/-- Over any host and after anything that was done with it, a device counts as open exactly if its port
holds a file. So a text is not refused for want of a file; an open that fails, and any close, leave both
closed; and the texts between an open and the next close reach the file in order, if the host does not
refuse. -/
theorem port_agrees (w : Host h) (name : String) (config : SerialConfig) (before : List Operation) :
    let x := (new w name config).run w before
    ∃ t, x.device = .transport t ∧ (t.isOpen = true ↔ t.port.file.isSome = true) ∧
      (∀ f, t.port.file = some f → .opened config.port (.ok f) ∈ x.calls) ∧
      (∀ op, ∃ t' ds, x.apply w op = ⟨.transport t', x.calls ++ ds⟩ ∧
        (∀ n, x.answer w op = .error (.io n .portClosed) →
          ∃ d ∈ ds, d.refusal? = some .portClosed) ∧
        ((op = .openPort ∧ x.answer w op ≠ .ok ()) ∨ op = .closePort →
          t'.isOpen = false ∧ t'.port.file = none)) ∧
      ∀ between, .closePort ∉ between → ∃ t' ds last,
        x.run w (.openPort :: between) = ⟨.transport t', x.calls ++ ds⟩ ∧
        (x.run w (.openPort :: between ++ [.closePort])).calls = x.calls ++ (ds ++ last) ∧
        ((∀ d ∈ ds, d.refusal? = none) → ∃ f, t'.port.file = some f ∧
          (∀ d ∈ ds ++ last, ∀ file, d.target? = some file → file = f) ∧
          (ds ++ last).flatMap HostCall.bytes = between.flatMap (Operation.line config)) := by
  intro x
  obtain ⟨t, -, -, hsound, -⟩ := (sound_new w name config).run w before
  refine ⟨t, hsound.device, by rw [hsound.agrees], hsound.opened, fun op => ?_,
    fun between hbetween => ?_⟩
  · obtain ⟨t', ds, happly, heffect, -⟩ := hsound.apply w op
    refine ⟨t', ds, happly, fun n => heffect.blamed, ?_⟩
    intro hshut
    rcases hshut with ⟨hop, hanswer⟩ | hop
    · subst hop
      exact heffect.openPort_failed hanswer
    · subst hop
      exact heffect.closePort_shut hsound.agrees
  · exact hsound.between w hbetween

def busyAtFirst : Host Unit where
  opens calls _ := if calls.isEmpty then .error (.other "device busy") else .ok ()
  takes _ _ _ := .ok ()
  flushes _ _ := .ok ()
  clock calls := calls.length

example : ((new busyAtFirst "Lamp" { port := "/dev/ttyS0", newLine := "\n" }).run busyAtFirst
    [.openPort, .execute "Lamp" [.text "LOST"], .openPort, .execute "Lamp" [.text "ON"], .openPort,
      .execute "Lamp" [.text "OFF"], .closePort]).calls.flatMap HostCall.bytes =
    "ON\nOFF\n".toUTF8.toList := by
  cbv

end Wired

end CueSheet
