import CueSheet.Proofs.Load.Graph

/-!
The priority window belongs to the root. Every file can ask for one, but only the root is heard, so the
last window that the root asks for stands, wherever it loads other files; and what those ask for makes
no difference to a load.
-/

namespace CueSheet

theorem foldl_getD {α β : Type} (f : α → Option β) (l : List α) (b : β) :
    l.foldl (fun b a => (f a).getD b) b = (l.filterMap f).getLast?.getD b := by
  induction l generalizing b with
  | nil => rfl
  | cons a r ih =>
    rw [List.foldl_cons, ih, List.filterMap_cons]
    cases f a with
    | none => rfl
    | some c => rw [List.getLast?_cons, Option.getD_some, Option.getD_some]

namespace Directive

variable {line : List Char} {seconds : Int}

def priority? (line : List Char) : Option Int :=
  if isDirective (Text.trim line) then
    match read (Text.trim line) with
    | .ok (.priority seconds) => some seconds
    | _ => none
  else none

theorem priority?_eq_some_iff : priority? line = some seconds ↔
    isDirective (Text.trim line) = true ∧ read (Text.trim line) = .ok (.priority seconds) := by
  unfold priority?
  split
  · next hd =>
    split
    · next hread => simp [hd, hread]
    · next hother => simpa [hd] using hother seconds
  · next hd => simp [hd]

theorem priority?_eq_none (h : isDirective (Text.trim line) = false ∨
    ∃ d, read (Text.trim line) = .ok d ∧ ∀ seconds, d ≠ .priority seconds) :
    priority? line = none := by
  refine Option.eq_none_iff_forall_ne_some.2 fun seconds hs => ?_
  obtain ⟨hd, hread⟩ := priority?_eq_some_iff.1 hs
  rcases h with hplain | ⟨d, hother, hne⟩
  · rw [hd] at hplain
    cases hplain
  · exact hne seconds (Except.ok.inj (hother.symm.trans hread))

end Directive

namespace FileTree

def priorities (t : FileTree) (p : Place) : List Int :=
  (t.lines p).filterMap fun
    | .ok line => Directive.priority? line
    | .error _ => none

theorem priorities_of_legible {t : FileTree} {p : Place} {texts : List (List Char × Nat)}
    (h : (t.lines p).zipIdx 1 = Loader.legible texts) :
    t.priorities p = texts.filterMap fun a => Directive.priority? a.1 := by
  have hlines : t.lines p = texts.map fun a => .ok a.1 := by
    rw [← List.zipIdx_map_fst 1 (t.lines p), h, Loader.legible, List.map_map]
    rfl
  rw [priorities, hlines, List.filterMap_map]
  rfl

end FileTree

namespace Loader

section Heard

def Quiet (visit : Visit) : Prop :=
  ∀ st p st' id, visit st p = .ok (st', id) → st'.window = st.window

variable {L : Loader} {visit : Visit} {chain : List Nat} {here : Place} {x y : Linker × Draft}
  {line : List Char} {n : Nat}

theorem Quiet.fileAt (hv : Quiet visit) {st st' : Linker} {q : Place} {id : Nat}
    (h : fileAt visit chain st q = .ok (st', id)) : st'.window = st.window := by
  rcases fileAt_eq_ok h with ⟨-, hvisit⟩ | ⟨-, -, rfl⟩
  · exact hv _ _ _ _ hvisit
  · rfl

theorem Handled.window (hv : Quiet visit) (h : Handled L visit chain here x line n y) :
    y.1.window =
      if chain.length = 1 then (Directive.priority? line).getD x.1.window else x.1.window := by
  cases h with
  | plain hd _ =>
    rw [Directive.priority?_eq_none (.inl hd)]
    exact (ite_self _).symm
  | device hd hread _ =>
    rw [Directive.priority?_eq_none (.inr ⟨_, hread, by rintro _ ⟨⟩⟩)]
    exact (ite_self _).symm
  | load hd hread _ hfile _ _ =>
    rw [Directive.priority?_eq_none (.inr ⟨_, hread, by rintro _ ⟨⟩⟩)]
    exact (hv.fileAt hfile).trans (ite_self _).symm
  | priority window hd hread hset =>
    rw [Directive.priority?_eq_some_iff.2 ⟨hd, hread⟩]
    simp only [Linker.setWindow] at hset
    split_ifs at hset with hroot hrange
    · rw [if_neg hroot]
      exact congrArg Linker.window (Except.ok.inj hset).symm
    · rw [if_pos (not_not.1 hroot)]
      exact congrArg Linker.window (Except.ok.inj hset).symm

theorem Handled.window_ge (hv : Quiet visit) (h : Handled L visit chain here x line n y)
    (hx : -1 ≤ x.1.window) : -1 ≤ y.1.window := by
  cases h with
  | plain _ _ => exact hx
  | device _ _ _ => exact hx
  | load _ _ _ hfile _ _ => rwa [hv.fileAt hfile]
  | priority window _ _ hset =>
    simp only [Linker.setWindow] at hset
    split_ifs at hset with hroot hrange
    · rw [Except.ok.inj hset] at hx
      exact hx
    · obtain rfl : _ = window := congrArg Linker.window (Except.ok.inj hset)
      exact not_lt.1 hrange

/-- A file that another one loads does not set the window, nor do the files that it loads. -/
theorem quiet_visit (hL : L.reader = .standard) (m : Nat) (hchain : chain ≠ []) :
    Quiet (L.visit m chain) := by
  induction m generalizing chain with
  | zero =>
    intro st p st' id h
    cases h
  | succ m ih =>
    intro st p st' id h
    obtain ⟨-, texts, y, hall, -, rfl⟩ :=
      readsAll_of_outcome (o := ⟨m + 1, chain, st, p⟩) hL h
    have hlength : (chain ++ [st.places.length]).length ≠ 1 := by
      have hpos := List.length_pos_of_ne_nil hchain
      rw [List.length_append, List.length_singleton]
      omega
    have hquiet : Quiet (L.visit m (chain ++ [st.places.length])) := ih (by simp)
    refine foldlM_keeps (P := fun x => x.1.window = st.window) (fun x a y hxy hx => ?_) hall.handled rfl
    exact ((handled_of_handle hxy).window hquiet).trans ((if_neg hlength).trans hx)

variable {o : Opening} {texts : List (List Char × Nat)}

theorem window_run (hL : L.reader = .standard) (ho : o.chain = [])
    (h : texts.foldlM (L.handling o) x = .ok y) :
    y.1.window = (texts.filterMap fun a => Directive.priority? a.1).getLast?.getD x.1.window ∧
      (-1 ≤ x.1.window → -1 ≤ y.1.window) := by
  have hquiet : Quiet (L.visit (o.allowance - 1) o.ownChain) :=
    quiet_visit hL _ (by simp [Opening.ownChain])
  have hlength : o.ownChain.length = 1 := by simp [Opening.ownChain, ho]
  rw [← foldl_getD]
  induction texts generalizing x with
  | nil =>
    cases h
    exact ⟨rfl, id⟩
  | cons a rest ih =>
    obtain ⟨z, hz, hrest⟩ := foldlM_cons_eq_ok h
    have hz := handled_of_handle hz
    have hwindow := hz.window hquiet
    rw [if_pos hlength] at hwindow
    obtain ⟨hlast, hge⟩ := ih hrest
    refine ⟨?_, fun hx => hge (hz.window_ge hquiet hx)⟩
    rw [hlast, List.foldl_cons, hwindow]

variable {root : String} {p : Program}

theorem window_of_program (hL : L.reader = .standard) (h : L.program here root = .ok p) :
    ∃ place, L.tree.canonical here root = .ok place ∧
      p.window = (L.tree.priorities place).getLast?.getD (-1) ∧ -1 ≤ p.window := by
  obtain ⟨place, st, id, hplace, houtcome, -, hwindow⟩ := program_eq_ok h
  obtain ⟨-, texts, y, hall, -, rfl⟩ := readsAll_of_outcome hL houtcome
  obtain ⟨hlast, hge⟩ := window_run hL rfl hall.handled
  refine ⟨place, hplace, ?_, ?_⟩
  · have hlines : L.tree.priorities place = _ := FileTree.priorities_of_legible hall.lines
    rw [hlines, ← hwindow]
    exact hlast
  · rw [← hwindow]
    exact hge (le_refl (-1))

end Heard

end Loader

section Unheard

def Retimed (a b : Except FileError (List Char)) : Prop :=
  ∃ line line' seconds seconds', a = .ok line ∧ b = .ok line' ∧
    Directive.priority? line = some seconds ∧ Directive.priority? line' = some seconds'

namespace FileTree

def linesOf (bytes : List UInt8) : List (Except FileError (List Char)) :=
  (Text.lines 10 bytes).map fun l => (decode l).map String.toList

/-- The same entry of a tree, or two files that ask for different windows and are not at `root`. -/
inductive Alike (root : Except FileError Place) : Place × FileNode → Place × FileNode → Prop
  | same (a : Place × FileNode) : Alike root a a
  | file {p : Place} {bytes bytes' : List UInt8} : root ≠ .ok p →
    List.Forall₂ (fun a b => a = b ∨ Retimed a b) (linesOf bytes) (linesOf bytes') →
    Alike root (p, .file bytes) (p, .file bytes')

variable {t t' : FileTree} {root : Except FileError Place} {p : Place}

theorem node?_alike (h : List.Forall₂ (Alike root) t.nodes t'.nodes) (p : Place) :
    t'.node? p = t.node? p ∨ ∃ bytes bytes', t.node? p = some (.file bytes) ∧
      t'.node? p = some (.file bytes') ∧ Alike root (p, .file bytes) (p, .file bytes') := by
  unfold node?
  split
  · exact .inl rfl
  · obtain ⟨nodes⟩ := t
    obtain ⟨nodes'⟩ := t'
    dsimp only at h ⊢
    induction h with
    | nil => exact .inl rfl
    | @cons a b rest rest' hab _ ih =>
      rw [List.find?_cons, List.find?_cons]
      cases hab with
      | same =>
        by_cases ha : a.1 = p
        · exact .inl (by simp only [ha, decide_true])
        · simpa only [ha, decide_false] using ih
      | @file q bytes bytes' hroot hlines =>
        by_cases hq : q = p
        · subst hq
          exact .inr ⟨bytes, bytes', by simp, by simp, .file hroot hlines⟩
        · simpa [hq] using ih

theorem lines_alike (h : List.Forall₂ (Alike root) t.nodes t'.nodes) (p : Place) :
    t'.lines p = t.lines p ∨ root ≠ .ok p ∧
      List.Forall₂ (fun a b => a = b ∨ Retimed a b) (t.lines p) (t'.lines p) := by
  rcases node?_alike h p with hnode | ⟨bytes, bytes', hnode, hnode', halike⟩
  · exact .inl (by rw [lines, lines, hnode])
  · rw [lines, lines, hnode, hnode']
    cases halike with
    | same _ => exact .inl rfl
    | file hroot hlines => exact .inr ⟨hroot, hlines⟩

theorem step_alike (h : List.Forall₂ (Alike root) t.nodes t'.nodes) : t'.step = t.step := by
  have hdirectory : ∀ p, (t'.node? p != some .directory) = (t.node? p != some .directory) := by
    intro p
    rcases node?_alike h p with hnode | ⟨bytes, bytes', hnode, hnode', -⟩
    · rw [hnode]
    · rw [hnode, hnode']
      rfl
  have hsome : ∀ p, (t'.node? p).isSome = (t.node? p).isSome := by
    intro p
    rcases node?_alike h p with hnode | ⟨bytes, bytes', hnode, hnode', -⟩
    · rw [hnode]
    · rw [hnode, hnode']
      rfl
  funext here name
  rw [step, step, hdirectory, hsome]

theorem canonical_alike (h : List.Forall₂ (Alike root) t.nodes t'.nodes) :
    t'.canonical = t.canonical := by
  funext here path
  rw [canonical, canonical, step_alike h]

end FileTree

namespace Loader

variable {L L' : Loader} {visit : Visit} {chain : List Nat} {here : Place} {n : Nat}

theorem obey_priority {line : List Char} {seconds : Int} (hchain : chain.length ≠ 1)
    (h : Directive.priority? line = some seconds) (st : Linker) (s : Sheet) :
    L.obey visit chain here n (Text.trim line) st s = .ok (st, s) := by
  obtain ⟨-, hread⟩ := Directive.priority?_eq_some_iff.1 h
  rw [obey, hread]
  simp [Except.mapError, bind, Except.bind, Linker.setWindow, hchain, pure, Except.pure]

structure Alike (L L' : Loader) (root : Except FileError Place) : Prop where
  nodes : List.Forall₂ (FileTree.Alike root) L.tree.nodes L'.tree.nodes
  reader : L'.reader = L.reader
  lineBuffer : L'.lineBuffer = L.lineBuffer

variable {root : Except FileError Place}

theorem Alike.obey_eq (h : L.Alike L' root) : L'.obey = L.obey := by
  have hload : L'.load = L.load := by
    funext visit chain here n d st s
    rw [load, load, FileTree.canonical_alike h.nodes]
  funext visit chain here n text st s
  rw [Loader.obey, Loader.obey, hload]

/-- Lines with the same numbers, and the same lines unless the file is loaded by another. -/
theorem Alike.readLines_eq (h : L.Alike L' root) {lines lines' : List FileLine}
    (hlines : List.Forall₂ (fun a b => a = b ∨ chain.length ≠ 1 ∧ Retimed a.1 b.1 ∧ a.2 = b.2)
      lines lines') (st : Linker) (pipe : Pipe) :
    L'.readLines visit chain here lines' st pipe = L.readLines visit chain here lines st pipe := by
  induction hlines generalizing st pipe with
  | nil => rfl
  | @cons a b rest rest' hab _ ih =>
    rcases hab with rfl | ⟨hchain, ⟨line, line', seconds, seconds', ha, hb, hs, hs'⟩, hn⟩
    · obtain ⟨read, n⟩ := a
      cases read with
      | error e => rfl
      | ok line => simp only [Loader.readLines, h.obey_eq, h.reader, ih]
    · obtain ⟨_, n⟩ := a
      obtain ⟨_, n'⟩ := b
      obtain rfl : n = n' := hn
      obtain rfl : _ = Except.ok line := ha
      obtain rfl : _ = Except.ok line' := hb
      have hd := (Directive.priority?_eq_some_iff.1 hs).1
      have hd' := (Directive.priority?_eq_some_iff.1 hs').1
      simp only [Loader.readLines, hd, hd', if_true, obey_priority hchain hs,
        obey_priority hchain hs', h.reader, ih]

theorem forall₂_zipIdx {α β : Type} {R : α → β → Prop} {l : List α} {l' : List β}
    (h : List.Forall₂ R l l') (n : Nat) :
    List.Forall₂ (fun a b => R a.1 b.1 ∧ a.2 = b.2) (l.zipIdx n) (l'.zipIdx n) := by
  induction h generalizing n with
  | nil => exact .nil
  | cons hab _ ih => exact .cons ⟨hab, rfl⟩ (ih (n + 1))

theorem Alike.visit_eq (h : L.Alike L' root) (m : Nat) (st : Linker)
    (hhere : chain ≠ [] ∨ root = .ok here) : L'.visit m chain st here = L.visit m chain st here := by
  induction m generalizing chain st here with
  | zero => rfl
  | succ m ih =>
    have hvisit : L'.visit m (chain ++ [st.places.length]) = L.visit m (chain ++ [st.places.length]) := by
      funext st' q
      exact ih st' (.inl (by simp))
    have hlines : List.Forall₂
        (fun a b => a = b ∨ (chain ++ [st.places.length]).length ≠ 1 ∧ Retimed a.1 b.1 ∧ a.2 = b.2)
        ((L.tree.lines here).zipIdx 1) ((L'.tree.lines here).zipIdx 1) := by
      rcases FileTree.lines_alike h.nodes here with hsame | ⟨hroot, hlines⟩
      · rw [hsame]
        exact List.forall₂_same.2 fun a _ => .inl rfl
      · refine (forall₂_zipIdx hlines 1).imp fun a b hab => ?_
        obtain ⟨hline | hline, hn⟩ := hab
        · exact .inl (Prod.ext hline hn)
        · have hpos := List.length_pos_of_ne_nil (hhere.resolve_right hroot)
          rw [List.length_append, List.length_singleton]
          exact .inr ⟨by omega, hline, hn⟩
    simp only [Loader.visit, hvisit, h.readLines_eq hlines, h.lineBuffer]

theorem Alike.program_eq {path : String} (h : L.Alike L' (L.tree.canonical here path)) :
    L'.program here path = L.program here path := by
  rw [Loader.program, Loader.program, FileTree.canonical_alike h.nodes, h.nodes.length_eq]
  cases hroot : L.tree.canonical here path with
  | error e => rfl
  | ok place =>
    have hvisit : L'.visit (L'.tree.nodes.length + 1) [] {} place =
        L.visit (L'.tree.nodes.length + 1) [] {} place := h.visit_eq _ {} (.inr hroot)
    simp only [Except.mapError, bind, Except.bind, hvisit]

end Loader

end Unheard

namespace Loader

/-- The window of a program is the last one that the root asks for, and -1 if it asks for none. No load,
whether it succeeds or not, can tell which windows the other files ask for. -/
theorem program_window {L : Loader} {here : Place} {root : String} (hL : L.reader = .standard) :
    (∀ p, L.program here root = .ok p → ∃ place, L.tree.canonical here root = .ok place ∧
      p.window = (L.tree.priorities place).getLast?.getD (-1) ∧ -1 ≤ p.window) ∧
    ∀ t', List.Forall₂ (FileTree.Alike (L.tree.canonical here root)) L.tree.nodes t'.nodes →
      ({ L with tree := t' } : Loader).program here root = L.program here root :=
  ⟨fun _ h => window_of_program hL h, fun _ h => Alike.program_eq ⟨h, rfl, rfl⟩⟩

def askedElsewhere (seconds : String) : Loader where
  tree := ⟨[
    (["a"], .file "#load \"b\"\n#priority 7\n#load \"c\"".toUTF8.toList),
    (["b"], .file "#priority 9\n#load \"c\"".toUTF8.toList),
    (["c"], .file ("#priority " ++ seconds).toUTF8.toList)]⟩

theorem program_window_askedElsewhere :
    ((askedElsewhere "3").program [] "/a").map (·.window) = .ok 7 ∧
      (askedElsewhere "-5").program [] "/a" = (askedElsewhere "3").program [] "/a" := by
  have hroot : (askedElsewhere "3").tree.canonical [] "/a" = .ok ["a"] := by cbv
  obtain ⟨hwindow, hsame⟩ := @program_window (askedElsewhere "3") [] "/a" rfl
  constructor
  · have hrun : ((askedElsewhere "3").program [] "/a").map (fun _ => ()) = .ok () := by cbv
    obtain ⟨p, hp, -⟩ := Result.map_eq_ok_iff.1 hrun
    obtain ⟨place, hplace, hlast, -⟩ := hwindow p hp
    obtain rfl : ["a"] = place := Except.ok.inj (hroot.symm.trans hplace)
    have hpriorities : (askedElsewhere "3").tree.priorities ["a"] = [7] := by cbv
    rw [hp, Except.map, hlast, hpriorities]
    rfl
  · refine hsame (askedElsewhere "-5").tree (.cons (.same _) (.cons (.same _) (.cons (.file ?_ ?_) .nil)))
    · rw [hroot]
      simp
    · have hthree : FileTree.linesOf ("#priority " ++ "3").toUTF8.toList =
          [.ok "#priority 3".toList] := by cbv
      have hfive : FileTree.linesOf ("#priority " ++ "-5").toUTF8.toList =
          [.ok "#priority -5".toList] := by cbv
      rw [hthree, hfive]
      refine .cons (.inr ⟨_, _, 3, -5, rfl, rfl, ?_, ?_⟩) .nil <;> cbv

end Loader

end CueSheet
