import CueSheet.Proofs.Load.Underway

/-!
How the visit of a file can end, also where some of its lines cannot be read. It goes through if all
lines are handled in turn; otherwise a directive could not be obeyed, or the fault is in the text of
this file. What one line does to the files seen so far is told apart by whether it asks for a file.
-/

namespace CueSheet

namespace Linker

variable {path : String} {line file : Nat} {target own self s : Sheet} {e : LoadError}
  {renames : List (String × String)} {pairs : Bind}

inductive Refuses (path : String) (line : Nat) (target : Sheet) (renames : List (String × String))
    (own : Sheet) : LoadError → Prop
  | rename (name : String) : Refuses path line target renames own (.duplicateRename path line name)
  | device (name : String) : Refuses path line target renames own (.unknownDevice path line name)
  | taken {before after : List Procedure} {p : Procedure} : exports target = before ++ p :: after →
    (own.procedure? (newName renames p.name)).isSome = true ∨
      (∃ q ∈ before, newName renames q.name = newName renames p.name) →
    Refuses path line target renames own
      (.duplicateDefinition path line (newName renames p.name))

theorem bind_eq_error {rest : List (String × String)} {seen : List String}
    (h : bind path line target own seen rest = .error e) :
    Refuses path line target renames own e := by
  induction rest generalizing seen with
  | nil => cases h
  | cons rename rest ih =>
    obtain ⟨old, new⟩ := rename
    simp only [bind] at h
    split at h
    · cases h
      exact .rename old
    · split at h
      · exact ih h
      · split at h
        · cases h
          exact .device new
        · exact ih (Result.map_eq_error_iff.1 h)

theorem addAliases_eq_error {ps : List Procedure}
    (h : (addAliases path line file renames pairs ps s).1 = .error e) :
    ∃ before p after, ps = before ++ p :: after ∧
      e = .duplicateDefinition path line (newName renames p.name) ∧
      ((s.procedure? (newName renames p.name)).isSome = true ∨
        ∃ q ∈ before, newName renames q.name = newName renames p.name) := by
  induction ps generalizing s with
  | nil => cases h
  | cons q r ih =>
    simp only [addAliases] at h
    split at h
    · next htaken =>
      cases h
      exact ⟨[], q, r, rfl, rfl, .inl htaken⟩
    · obtain ⟨before, p, after, rfl, rfl, hcase⟩ := ih h
      refine ⟨q :: before, p, after, rfl, rfl, ?_⟩
      rw [Sheet.procedure?_put] at hcase
      rcases hcase with hsome | ⟨q', hq', hname⟩
      · split at hsome
        · next hname => exact .inr ⟨q, List.mem_cons_self, hname⟩
        · exact .inl hsome
      · exact .inr ⟨q', List.mem_cons_of_mem _ hq', hname⟩

theorem refuses_of_link (h : (link path line target renames own).1 = .error e) :
    Refuses path line target renames own e := by
  simp only [link] at h
  split at h
  · next hbind =>
    cases h
    exact bind_eq_error hbind
  · obtain ⟨before, p, after, hexports, rfl, hcase⟩ := addAliases_eq_error h
    exact .taken hexports hcase

end Linker

namespace Loader

section Asking

variable (L : Loader) (here : Place)

def Asks (line : List Char) (q : Place) : Prop :=
  Directive.isDirective (Text.trim line) = true ∧
    ∃ d, Directive.read (Text.trim line) = .ok (.load d) ∧
      L.tree.canonical [] (Path.join (Place.path here.dropLast) d.path) = .ok q

end Asking

variable {L : Loader} {visit : Visit} {chain : List Nat} {here : Place} {n : Nat}
  {st st' : Linker}

theorem Asks.unique {here : Place} {line : List Char} {q q' : Place} (h : L.Asks here line q)
    (h' : L.Asks here line q') : q = q' := by
  obtain ⟨-, d, hd, hq⟩ := h
  obtain ⟨-, d', hd', hq'⟩ := h'
  obtain rfl : d = d' := Directive.load.inj (Except.ok.inj (hd.symm.trans hd'))
  exact Except.ok.inj (hq.symm.trans hq')

theorem getElem?_of_idxOf? {ps : List Place} {p : Place} {id : Nat} (h : ps.idxOf? p = some id) :
    ps[id]? = some p := by
  obtain ⟨hlt, heq, -⟩ := List.findIdx?_eq_some_iff_getElem.1 h
  rw [List.getElem?_eq_getElem hlt, beq_iff_eq.1 heq]

theorem fileAt_eq_ok {p : Place} {id : Nat} (h : fileAt visit chain st p = .ok (st', id)) :
    p ∉ st.places ∧ visit st p = .ok (st', id) ∨
      st.places[id]? = some p ∧ id ∉ chain ∧ st' = st := by
  simp only [fileAt] at h
  split at h
  · next hidx => exact .inl ⟨List.idxOf?_eq_none_iff.1 hidx, h⟩
  · next j hidx =>
    split_ifs at h with hj
    cases h
    exact .inr ⟨getElem?_of_idxOf? hidx, hj, rfl⟩

theorem load_eq_ok {d : LoadDecl} {s s' : Sheet}
    (h : L.load visit chain here n d st s = .ok (st', s')) :
    ∃ q id sheet, L.tree.canonical [] (Path.join (Place.path here.dropLast) d.path) = .ok q ∧
      fileAt visit chain st q = .ok (st', id) ∧ st'.Known id sheet ∧
      Linker.link here.path n sheet d.renames s = (.ok (), s') := by
  obtain ⟨q, hq, h⟩ := Result.bind_eq_ok_iff.1 h
  obtain ⟨⟨st₁, id⟩, hfile, h⟩ := Result.bind_eq_ok_iff.1 h
  simp only at h
  split at h
  · next sheet hid =>
    obtain ⟨⟨⟩, hlink, he⟩ := Result.map_eq_ok_iff.1 h
    cases he
    exact ⟨q, id, sheet, Result.mapError_eq_ok_iff.1 hq, hfile, hid, Prod.ext hlink rfl⟩
  · cases h

theorem setWindow_eq_ok {path : String} {seconds : Int}
    (h : Linker.setWindow chain path n seconds st = .ok st') :
    ∃ window, st' = { st with window := window } := by
  simp only [Linker.setWindow] at h
  split_ifs at h <;> cases h
  · exact ⟨st.window, rfl⟩
  · exact ⟨seconds, rfl⟩

inductive Handled (L : Loader) (visit : Visit) (chain : List Nat) (here : Place)
    (x : Linker × Draft) (line : List Char) (n : Nat) : Linker × Draft → Prop
  | plain : Directive.isDirective (Text.trim line) = false →
    (x.2.read n (Text.trim line)).refusal = none →
    Handled L visit chain here x line n (x.1, (x.2.read n (Text.trim line)).draft)
  | device {d : DeviceDecl} {s : Sheet} : Directive.isDirective (Text.trim line) = true →
    Directive.read (Text.trim line) = .ok (.device d) →
    Linker.declare here.path n d x.2.sheet = .ok s →
    Handled L visit chain here x line n (x.1, { x.2 with sheet := s })
  | priority {seconds : Int} (window : Int) : Directive.isDirective (Text.trim line) = true →
    Directive.read (Text.trim line) = .ok (.priority seconds) →
    Linker.setWindow chain here.path n seconds x.1 = .ok { x.1 with window := window } →
    Handled L visit chain here x line n ({ x.1 with window := window }, x.2)
  | load {d : LoadDecl} {q : Place} {st : Linker} {id : Nat} {target s : Sheet} :
    Directive.isDirective (Text.trim line) = true →
    Directive.read (Text.trim line) = .ok (.load d) →
    L.tree.canonical [] (Path.join (Place.path here.dropLast) d.path) = .ok q →
    fileAt visit chain x.1 q = .ok (st, id) → st.Known id target →
    Linker.link here.path n target d.renames x.2.sheet = (.ok (), s) →
    Handled L visit chain here x line n (st, { x.2 with sheet := s })

theorem handled_of_handle {x y : Linker × Draft} {line : List Char}
    (h : L.handle visit chain here x (line, n) = .ok y) :
    Handled L visit chain here x line n y := by
  cases hd : Directive.isDirective (Text.trim line) with
  | false =>
    cases hr : (x.2.read n (Text.trim line)).refusal with
    | some e =>
      rw [handle_refused hd hr] at h
      cases h
    | none =>
      rw [handle_accepted hd hr] at h
      cases h
      exact .plain hd hr
  | true =>
    rw [handle_directive hd] at h
    obtain ⟨⟨st', s'⟩, hobey, rfl⟩ := Result.map_eq_ok_iff.1 h
    obtain ⟨directive, hread, hobey⟩ := Result.bind_eq_ok_iff.1 hobey
    have hread := Result.mapError_eq_ok_iff.1 hread
    cases directive with
    | device d =>
      obtain ⟨s, hdeclare, he⟩ := Result.bind_eq_ok_iff.1 hobey
      cases he
      exact .device hd hread hdeclare
    | priority seconds =>
      obtain ⟨st₁, hw, he⟩ := Result.bind_eq_ok_iff.1 hobey
      cases he
      obtain ⟨window, rfl⟩ := setWindow_eq_ok hw
      exact .priority window hd hread hw
    | load d =>
      obtain ⟨q, id, target, hq, hfile, hknown, hlink⟩ := load_eq_ok hobey
      exact .load hd hread hq hfile hknown hlink

inductive Advance (L : Loader) (visit : Visit) (chain : List Nat) (here : Place) (line : List Char) :
    Linker → Linker → Prop
  | stay {st : Linker} (window : Int) : (∀ q, ¬ L.Asks here line q) →
    Advance L visit chain here line st { st with window := window }
  | reuse {st : Linker} {q : Place} {id : Nat} {s : Sheet} : L.Asks here line q →
    st.places[id]? = some q → st.Known id s → Advance L visit chain here line st st
  | visit {st st' : Linker} {q : Place} {id : Nat} {s : Sheet} : L.Asks here line q →
    q ∉ st.places → visit st q = .ok (st', id) → st'.Known id s →
    Advance L visit chain here line st st'

theorem not_asks_of_read {line : List Char} {directive : Directive}
    (hread : Directive.read (Text.trim line) = .ok directive) (hno : ∀ d, directive ≠ .load d)
    (q : Place) : ¬ L.Asks here line q := by
  rintro ⟨-, d, hload, -⟩
  exact hno d (Except.ok.inj (hread.symm.trans hload))

theorem Handled.advance {x y : Linker × Draft} {line : List Char}
    (h : Handled L visit chain here x line n y) : Advance L visit chain here line x.1 y.1 := by
  cases h with
  | plain hd _ =>
    refine .stay x.1.window fun q hq => ?_
    rw [hq.1] at hd
    cases hd
  | device _ hread _ => exact .stay x.1.window (not_asks_of_read hread (by rintro d ⟨⟩))
  | priority window _ hread _ => exact .stay window (not_asks_of_read hread (by rintro d ⟨⟩))
  | @load d q _ _ _ _ hd hread hq hfile hknown _ =>
    have hasks : L.Asks here line q := ⟨hd, d, hread, hq⟩
    rcases fileAt_eq_ok hfile with ⟨hnew, hvisit⟩ | ⟨hplace, -, rfl⟩
    · exact .visit hasks hnew hvisit hknown
    · exact .reuse hasks hplace hknown

theorem advance_handle {x y : Linker × Draft} {line : List Char}
    (h : L.handle visit chain here x (line, n) = .ok y) :
    Advance L visit chain here line x.1 y.1 := (handled_of_handle h).advance

theorem Advance.keeps {P : Linker → Prop} {line : List Char}
    (h : Advance L visit chain here line st st') (hv : Keeps P visit)
    (hw : ∀ st window, P st → P { st with window := window }) (hP : P st) : P st' := by
  cases h with
  | stay window _ => exact hw st window hP
  | reuse _ _ _ => exact hP
  | visit _ _ hvisit _ => exact hv _ _ _ _ hvisit hP

theorem Advance.asked {line : List Char} {q : Place} (h : Advance L visit chain here line st st')
    (hq : L.Asks here line q) :
    (∃ id s, st.places[id]? = some q ∧ st.Known id s ∧ st' = st) ∨
      q ∉ st.places ∧ ∃ id s, visit st q = .ok (st', id) ∧ st'.Known id s := by
  cases h with
  | stay window hno => exact absurd hq (hno q)
  | @reuse _ id s hq' hplace hknown =>
    obtain rfl := hq.unique hq'
    exact .inl ⟨id, s, hplace, hknown, rfl⟩
  | @visit _ _ id s hq' hnew hvisit hknown =>
    obtain rfl := hq.unique hq'
    exact .inr ⟨hnew, id, s, hvisit, hknown⟩

inductive Fails (L : Loader) (visit : Visit) (chain : List Nat) (here : Place)
    (x : Linker × Draft) (line : List Char) (n : Nat) : LoadError → Prop
  | directive {e : DirectiveError} : Directive.read (Text.trim line) = .error e →
    Fails L visit chain here x line n (.directive here.path n e)
  | device {d : DeviceDecl} : Directive.read (Text.trim line) = .ok (.device d) →
    Fails L visit chain here x line n (.duplicateDevice here.path n d.name)
  | priority {seconds : Int} : Directive.read (Text.trim line) = .ok (.priority seconds) →
    Fails L visit chain here x line n (.priorityRange here.path n seconds)
  | unreadable {d : LoadDecl} {e : FileError} : Directive.read (Text.trim line) = .ok (.load d) →
    Fails L visit chain here x line n
      (.unreadable (Path.join (Place.path here.dropLast) d.path) e)
  | cycle {q : Place} {id : Nat} : L.Asks here line q → x.1.places[id]? = some q → id ∈ chain →
    Fails L visit chain here x line n
      (.cycle (chain.filterMap (fun i => (x.1.places[i]?).map Place.path) ++ [q.path]))
  | link {d : LoadDecl} {q : Place} {st : Linker} {id : Nat} {target : Sheet} {e : LoadError} :
    Directive.read (Text.trim line) = .ok (.load d) →
    L.tree.canonical [] (Path.join (Place.path here.dropLast) d.path) = .ok q →
    fileAt visit chain x.1 q = .ok (st, id) → st.Known id target →
    Linker.Refuses here.path n target d.renames x.2.sheet e → Fails L visit chain here x line n e
  | stopped (path : String) : Fails L visit chain here x line n (.readerStopped path)

theorem fails_of_load {x : Linker × Draft} {line : List Char} {d : LoadDecl} {e : LoadError}
    (hd : Directive.isDirective (Text.trim line) = true)
    (hread : Directive.read (Text.trim line) = .ok (.load d))
    (h : L.load visit chain here n d x.1 x.2.sheet = .error e) :
    Fails L visit chain here x line n e ∨
      ∃ q, L.Asks here line q ∧ q ∉ x.1.places ∧ visit x.1 q = .error e := by
  rcases Result.bind_eq_error_iff.1 h with h | ⟨q, hq, h⟩
  · obtain ⟨e', -, rfl⟩ := Result.mapError_eq_error_iff.1 h
    exact .inl (.unreadable hread)
  have hq := Result.mapError_eq_ok_iff.1 hq
  rcases Result.bind_eq_error_iff.1 h with h | ⟨⟨st₁, id⟩, hfile, h⟩
  · simp only [fileAt] at h
    split at h
    · next hidx => exact .inr ⟨q, ⟨hd, d, hread, hq⟩, List.idxOf?_eq_none_iff.1 hidx, h⟩
    · next id hidx =>
      split_ifs at h with hid
      cases h
      exact .inl (.cycle ⟨hd, d, hread, hq⟩ (getElem?_of_idxOf? hidx) hid)
  · simp only at h
    split at h
    · next target hknown =>
      exact .inl (.link hread hq hfile hknown
        (Linker.refuses_of_link (Result.map_eq_error_iff.1 h)))
    · cases h
      exact .inl (.stopped q.path)

theorem fails_of_obey {x : Linker × Draft} {line : List Char} {e : LoadError}
    (hd : Directive.isDirective (Text.trim line) = true)
    (h : L.obey visit chain here n (Text.trim line) x.1 x.2.sheet = .error e) :
    Fails L visit chain here x line n e ∨
      ∃ q, L.Asks here line q ∧ q ∉ x.1.places ∧ visit x.1 q = .error e := by
  rcases Result.bind_eq_error_iff.1 h with h | ⟨directive, hread, h⟩
  · obtain ⟨e', hread, rfl⟩ := Result.mapError_eq_error_iff.1 h
    exact .inl (.directive hread)
  have hread := Result.mapError_eq_ok_iff.1 hread
  cases directive with
  | device d =>
    rcases Result.bind_eq_error_iff.1 h with h | ⟨_, -, h⟩
    · simp only [Linker.declare] at h
      split at h
      · cases h
      · cases h
        exact .inl (.device hread)
    · cases h
  | priority seconds =>
    rcases Result.bind_eq_error_iff.1 h with h | ⟨_, -, h⟩
    · simp only [Linker.setWindow] at h
      split_ifs at h
      cases h
      exact .inl (.priority hread)
    · cases h
  | load d => exact fails_of_load hd hread h

section Ending

variable (L : Loader) (visit : Visit) (chain : List Nat) (here : Place)

inductive Ending (x : Linker × Draft) (lines : List FileLine) :
    Except LoadError (Linker × Sheet) → Prop
  | through {texts : List (List Char × Nat)} {y : Linker × Draft} : lines = legible texts →
    texts.foldlM (L.handle visit chain here) x = .ok y → y.2.finish = .ok () →
    y.2.sheet.undefined? = none → Ending x lines (.ok (y.1, y.2.sheet))
  | disobeyed {before : List (List Char × Nat)} {line : List Char} {n : Nat}
    {after : List FileLine} {y : Linker × Draft} {e : LoadError} :
    lines = legible before ++ (.ok line, n) :: after →
    before.foldlM (L.handle visit chain here) x = .ok y →
    Directive.isDirective (Text.trim line) = true →
    L.obey visit chain here n (Text.trim line) y.1 y.2.sheet = .error e → Ending x lines (.error e)
  | unreadable (e : FileError) : Ending x lines (.error (.unreadable here.path e))
  | refused {before : List (List Char × Nat)} {line : List Char} {n : Nat} {after : List FileLine}
    {y : Linker × Draft} {e : SyntaxError} : lines = legible before ++ (.ok line, n) :: after →
    before.foldlM (L.handle visit chain here) x = .ok y →
    Directive.isDirective (Text.trim line) = false →
    (y.2.read n (Text.trim line)).refusal = some e → Ending x lines (.error (.malformed here.path e))
  | unclosed {d : Draft} {e : SyntaxError} : d.finish = .error e →
    Ending x lines (.error (.malformed here.path e))
  | undefined (name : String) : Ending x lines (.error (.undefinedProcedure here.path name))

variable {L visit chain here}

theorem Ending.cons {x y : Linker × Draft} {line : List Char} {lines : List FileLine}
    {r : Except LoadError (Linker × Sheet)}
    (hy : L.handle visit chain here x (line, n) = .ok y) (h : Ending L visit chain here y lines r) :
    Ending L visit chain here x ((.ok line, n) :: lines) r := by
  cases h with
  | @through texts z hlines hfold hfinish hdef =>
    have hlines' : (.ok line, n) :: lines = legible ((line, n) :: texts) := by
      rw [hlines, legible_cons]
    refine .through hlines' ?_ hfinish hdef
    rw [List.foldlM_cons, hy]
    exact hfold
  | @disobeyed before line' n' after z _ hlines hfold hd hobey =>
    have hlines' : (.ok line, n) :: lines = legible ((line, n) :: before) ++ (.ok line', n') :: after := by
      rw [hlines, legible_cons]
      rfl
    refine .disobeyed hlines' ?_ hd hobey
    rw [List.foldlM_cons, hy]
    exact hfold
  | @refused before line' n' after z e hlines hfold hd hr =>
    have hlines' : (.ok line, n) :: lines = legible ((line, n) :: before) ++ (.ok line', n') :: after := by
      rw [hlines, legible_cons]
      rfl
    refine .refused hlines' ?_ hd hr
    rw [List.foldlM_cons, hy]
    exact hfold
  | unreadable e => exact .unreadable e
  | unclosed hfinish => exact .unclosed hfinish
  | undefined name => exact .undefined name

theorem ending_refused (lines : List FileLine) {x : Linker × Draft} {all : List FileLine}
    (st : Linker) {p : Pipe} {e : SyntaxError} (hp : p.Idle) (hf : p.failure = some e)
    (h : Ending L visit chain here x all (.error (.malformed here.path e))) :
    Ending L visit chain here x all (reading L visit chain here lines st p) := by
  induction lines with
  | nil =>
    have hfinish : finish here p = .error (.malformed here.path e) := by
      simp [finish, Pipe.finish?, hp.running, hf]
    change Ending L visit chain here x all ((finish here p).map (st, ·))
    rw [hfinish]
    exact h
  | cons entry rest ih =>
    obtain ⟨read, n⟩ := entry
    cases read with
    | error e => exact .unreadable e
    | ok line =>
      cases hd : Directive.isDirective (Text.trim line) with
      | true =>
        have hread : L.readLines visit chain here ((.ok line, n) :: rest) st p =
            .ok (st, { p with worker := .parked }) := by
          simp [readLines, hd, hp.pause?, Pipe.isHealthy, hf]
        have hfinish : finish here { p with worker := .parked } =
            .error (.malformed here.path e) := by
          simp [finish, Pipe.finish?, hf]
        rw [reading, hread]
        change Ending L visit chain here x all ((finish here _).map (st, ·))
        rw [hfinish]
        exact h
      | false =>
        have hfeed : p.feed? L.reader n (Text.trim line) = some p :=
          hp.feed?_refused (by simp [hf])
        have hread : L.readLines visit chain here ((.ok line, n) :: rest) st p =
            L.readLines visit chain here rest st p := by
          simp [readLines, hd, hfeed]
        rw [reading, hread]
        exact ih

theorem ending_finish {x : Linker × Draft} {p : Pipe} (hp : p.Idle) (hf : p.failure = none)
    (hx : x.2 = p.draft) :
    Ending L visit chain here x [] ((finish here p).map (x.1, ·)) := by
  rw [finish_eq_deliver hp hf, ← hx]
  simp only [deliver]
  cases hfinish : x.2.finish with
  | error e => exact .unclosed hfinish
  | ok _ =>
    dsimp only
    cases hundefined : x.2.sheet.undefined? with
    | some name => exact .undefined name
    | none =>
      have hnil : ([] : List FileLine) = legible [] := rfl
      exact .through hnil rfl hfinish hundefined

theorem ending_reading (hL : L.reader = .standard) (lines : List FileLine) {st : Linker}
    {p : Pipe} (hp : p.Idle) (hf : p.failure = none) :
    Ending L visit chain here (st, p.draft) lines (reading L visit chain here lines st p) := by
  induction lines generalizing st p with
  | nil => exact ending_finish hp hf rfl
  | cons entry rest ih =>
    obtain ⟨read, n⟩ := entry
    cases read with
    | error e => exact .unreadable e
    | ok line =>
      rw [reading, readLines]
      cases hd : Directive.isDirective (Text.trim line) with
      | true =>
        have hhealthy : Pipe.isHealthy { p with worker := .parked } = true := by
          simp [Pipe.isHealthy, hf]
        simp only [if_true, hp.pause?, hhealthy, Bool.not_true, Bool.false_eq_true, if_false]
        cases hobey : L.obey visit chain here n (Text.trim line) st p.draft.sheet with
        | error e =>
          have hfirst : (.ok line, n) :: rest = legible [] ++ (.ok line, n) :: rest := rfl
          exact .disobeyed hfirst rfl hd hobey
        | ok y =>
          have hhandle : L.handle visit chain here (st, p.draft) (line, n) =
              (L.obey visit chain here n (Text.trim line) st p.draft.sheet).map fun y =>
                (y.1, { p.draft with sheet := y.2 }) := handle_directive hd
          rw [hobey] at hhandle
          refine .cons hhandle ?_
          have hnext : (p.rewrite y.2).Idle := ⟨hp.running, hp.empty, hp.room⟩
          change Ending L visit chain here (y.1, (p.rewrite y.2).draft) rest
            (reading L visit chain here rest y.1
              (Pipe.resume L.reader (Pipe.rewrite { p with worker := .parked } y.2)))
          rw [hp.resume]
          exact ih hnext hf
      | false =>
        simp only [Bool.false_eq_true, if_false, hL, hp.feed?_standard hf]
        cases hr : (p.draft.read n (Text.trim line)).refusal with
        | none =>
          refine .cons (handle_accepted hd hr) ?_
          exact ih (p := { p with draft := (p.draft.read n (Text.trim line)).draft, failure := none })
            ⟨hp.running, hp.empty, hp.room⟩ rfl
        | some e =>
          have hfirst : (.ok line, n) :: rest = legible [] ++ (.ok line, n) :: rest := rfl
          exact ending_refused (p := { p with
            draft := (p.draft.read n (Text.trim line)).draft, failure := some e })
            rest st ⟨hp.running, hp.empty, hp.room⟩ rfl (.refused hfirst rfl hd hr)

end Ending

end Loader

end CueSheet
