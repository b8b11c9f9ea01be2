import CueSheet.Proofs.Load.Exports
import CueSheet.Proofs.Load.Graph

/-!
Names that are given twice. A body is refused only to a name that has one or is an alias; a name that is
pending waits for its body and gets it. An alias is refused any name that the file has, also one that is
pending: a file cannot use a procedure first and load it later.
-/

namespace CueSheet

namespace Draft

variable {d : Draft} {n : Nat} {name : String} {text : List Char}

theorem Effect.isDefined_of_duplicate {r : Reading} (h : d.Effect n r) {m : Nat}
    (hr : r.refusal = some (.duplicate m name)) : m = n ∧ d.sheet.isDefined name = true := by
  cases h with
  | taken _ hdefined =>
    cases hr
    exact ⟨rfl, hdefined⟩
  | lost _ _ hnone =>
    cases hr
    exact ⟨rfl, (Sheet.define?_eq_none_iff _ _ _).1 hnone⟩
  | _ => cases hr

theorem finish_ne_duplicate : d.finish ≠ .error (.duplicate n name) := by
  simp only [finish]
  split
  · rintro ⟨⟩
  · split <;> rintro ⟨⟩

theorem read_open (hscan : Token.scan text = .ok [.name "proc", .name name, .symbol .lbrace])
    (hblock : d.block = none) (hdevice : d.sheet.device? name = none)
    (hname : d.sheet.isDefined name = false) :
    d.read n text = accepted { d with block := some ⟨name, n, [], none⟩ } := by
  have hkind : Line.Kind.of [.name "proc", .name name, .symbol .lbrace] = .procedure name := rfl
  simp only [read, hscan, readTokens, hkind, openProcedure, hblock, hdevice, hname]
  rfl

theorem read_close {b : OpenProcedure} (hscan : Token.scan text = .ok [.symbol .rbrace])
    (hblock : d.block = some b) (htimeline : b.timeline = none)
    (hname : d.sheet.isDefined b.name = false) :
    d.read n text = accepted ⟨d.sheet.put ⟨b.name, .body b.body⟩, none⟩ := by
  have hkind : Line.Kind.of [.symbol .rbrace] = .closing := rfl
  have hdefine : d.sheet.define? b.name b.body = some (d.sheet.put ⟨b.name, .body b.body⟩) := by
    simp [Sheet.define?, hname]
  simp only [read, hscan, readTokens, hkind, close, hblock, htimeline, hdefine]

end Draft

namespace Linker

variable {path : String} {line : Nat} {target own : Sheet} {renames : List (String × String)}
  {pairs : Bind} {p : Procedure}

theorem link_eq_duplicate (hbind : bind path line target own [] renames = .ok pairs)
    (hp : p ∈ exports target) (htaken : (own.procedure? (newName renames p.name)).isSome = true) :
    ∃ name, (link path line target renames own).1 = .error (.duplicateDefinition path line name) := by
  simp only [link, hbind]
  cases h : (addAliases path line target.file renames pairs (exports target) own).1 with
  | error e =>
    obtain ⟨before, q, after, -, rfl, -⟩ := addAliases_eq_error h
    exact ⟨_, rfl⟩
  | ok _ =>
    obtain ⟨-, hfresh, -⟩ := addAliases_eq_ok_iff.1 (Prod.ext h rfl)
    rw [hfresh _ (List.mem_map_of_mem hp)] at htaken
    cases htaken

end Linker

namespace Loader

variable {L : Loader} {here : Place} {root : String}

/-- The line loads a procedure under a name that the file has, or gives to an earlier one of the same
line. -/
inductive Collides (L : Loader) (o : Opening) (y : Linker × Draft) (line : List Char) (n : Nat)
    (name : String) : Prop
  | intro {d : LoadDecl} {q : Place} {st : Linker} {id : Nat} {target : Sheet}
    {before after : List Procedure} {p : Procedure} : L.Reaches o y line n →
    Directive.read (Text.trim line) = .ok (.load d) →
    L.tree.canonical [] (Path.join (Place.path o.place.dropLast) d.path) = .ok q →
    fileAt (L.visit (o.allowance - 1) o.ownChain) o.ownChain y.1 q = .ok (st, id) →
    st.Known id target → Linker.exports target = before ++ p :: after →
    Linker.newName d.renames p.name = name →
    (y.2.sheet.procedure? name).isSome = true ∨
      (∃ r ∈ before, Linker.newName d.renames r.name = name) → Collides L o y line n name

theorem blames_of_program (hL : L.reader = .standard) {e : LoadError}
    (h : L.program here root = .error e) :
    (∃ e', e = .unreadable root e') ∨ ∃ o, L.Opened here root o ∧ L.Blames o e := by
  rcases program_eq_error h with hroot | ⟨place, hplace, houtcome | ⟨st, i, houtcome, hnone⟩⟩
  · exact .inl hroot
  · obtain ⟨o, ho, hblames⟩ := exists_blamed hL houtcome
    exact .inr ⟨o, ⟨place, hplace, ho⟩, hblames⟩
  · exact absurd hnone (mapM_ne_none hL houtcome)

theorem defined_of_program (hL : L.reader = .standard) {path name : String} {n : Nat}
    (h : L.program here root = .error (.malformed path (.duplicate n name))) :
    ∃ o y line, L.Opened here root o ∧ o.place.path = path ∧ L.Comes o y line n ∧
      y.2.sheet.isDefined name = true := by
  rcases blames_of_program hL h with ⟨e', he⟩ | ⟨o, ho, hblames⟩
  · cases he
  cases hblames with
  | @refused y line m _ hcomes hd hr =>
    obtain ⟨rfl, hdefined⟩ := (Draft.effect_read _ _ _).isDefined_of_duplicate hr
    exact ⟨o, y, line, ho, rfl, hcomes, hdefined⟩
  | unclosed hfinish => exact absurd hfinish Draft.finish_ne_duplicate
  | disobeyed _ hfails =>
    cases hfails with
    | link _ _ _ _ hrefuses => cases hrefuses

theorem collides_of_program (hL : L.reader = .standard) {path name : String} {n : Nat}
    (h : L.program here root = .error (.duplicateDefinition path n name)) :
    ∃ o y line, L.Opened here root o ∧ o.place.path = path ∧ L.Collides o y line n name := by
  rcases blames_of_program hL h with ⟨e', he⟩ | ⟨o, ho, hblames⟩
  · cases he
  cases hblames with
  | @disobeyed y line m _ hreach hfails =>
    cases hfails with
    | link hread hq hfile hknown hrefuses =>
      cases hrefuses with
      | taken hexports hcase =>
        exact ⟨o, y, line, ho, rfl, .intro hreach hread hq hfile hknown hexports rfl hcase⟩

/-- A duplicate is reported at a line of an opened file that has the name already: for a body, with a
definition; for an alias, in any way, or from the same line. What is pending can get its body, and no
alias. -/
theorem program_duplicate (hL : L.reader = .standard) :
    (∀ path n name, L.program here root = .error (.malformed path (.duplicate n name)) →
      ∃ o y line, L.Opened here root o ∧ o.place.path = path ∧ L.Comes o y line n ∧
        y.2.sheet.isDefined name = true) ∧
    (∀ path n name, L.program here root = .error (.duplicateDefinition path n name) →
      ∃ o y line, L.Opened here root o ∧ o.place.path = path ∧ L.Collides o y line n name) ∧
    (∀ (d : Draft) n name text,
      Token.scan text = .ok [.name "proc", .name name, .symbol .lbrace] → d.block = none →
      d.sheet.device? name = none → d.sheet.isDefined name = false →
      d.read n text = Draft.accepted { d with block := some ⟨name, n, [], none⟩ }) ∧
    (∀ (d : Draft) n b text, Token.scan text = .ok [.symbol .rbrace] → d.block = some b →
      b.timeline = none → d.sheet.isDefined b.name = false →
      d.read n text = Draft.accepted ⟨d.sheet.put ⟨b.name, .body b.body⟩, none⟩) ∧
    ∀ path n target renames own pairs p,
      Linker.bind path n target own [] renames = .ok pairs → p ∈ Linker.exports target →
      (own.procedure? (Linker.newName renames p.name)).isSome = true →
      ∃ name, (Linker.link path n target renames own).1 =
        .error (.duplicateDefinition path n name) :=
  ⟨fun _ _ _ => defined_of_program hL, fun _ _ _ => collides_of_program hL,
    fun _ _ _ _ => Draft.read_open, fun _ _ _ _ => Draft.read_close,
    fun _ _ _ _ _ _ _ => Linker.link_eq_duplicate⟩

def announced : Loader where
  tree := ⟨[
    (["a"], .file "proc run;\n#load \"b\"\nproc Main \x7b\n\x7d".toUTF8.toList),
    (["b"], .file "proc run \x7b\n\x7d".toUTF8.toList)]⟩

theorem program_announced :
    announced.program [] "/a" = .error (.duplicateDefinition "/a" 2 "run") := by
  cbv

theorem program_duplicate_announced : ∃ o y line, announced.Opened [] "/a" o ∧ o.place.path = "/a" ∧
    announced.Collides o y line 2 "run" :=
  (program_duplicate rfl).2.1 _ _ _ program_announced

theorem comes_announced : ∃ y, announced.Comes (announced.first ["a"]) y "#load \"b\"".toList 2 ∧
    y.2.sheet.isDefined "run" = false := by
  have hlines : (announced.tree.lines ["a"]).zipIdx 1 = legible [("proc run;".toList, 1)] ++
      (.ok "#load \"b\"".toList, 2) ::
        [(.ok "proc Main \x7b".toList, 3), (.ok "\x7d".toList, 4)] := by cbv
  have hrun : ([("proc run;".toList, 1)].foldlM (announced.handling (announced.first ["a"]))
      (announced.first ["a"]).start).map (fun y => y.2.sheet.isDefined "run") = .ok false := by cbv
  obtain ⟨y, hy, hdefined⟩ := Result.map_eq_ok_iff.1 hrun
  exact ⟨y, .intro hlines hy, hdefined⟩

theorem duplicate_not_always_defined : ¬ ∀ (L : Loader) (here : Place) (root path : String) (n : Nat)
    (name : String), L.reader = .standard →
    L.program here root = .error (.duplicateDefinition path n name) →
    ∃ o y line, L.Opened here root o ∧ o.place.path = path ∧ L.Comes o y line n ∧
      y.2.sheet.isDefined name = true := by
  intro h
  obtain ⟨o, y, line, ho, hpath, hcomes, hdefined⟩ :=
    h announced [] "/a" "/a" 2 "run" rfl program_announced
  have hroot : announced.tree.canonical [] "/a" = .ok ["a"] := by cbv
  have hplain : Place.Plain ["a"] := FileTree.plain_canonical Place.plain_nil hroot
  have hplace : o.place = ["a"] :=
    Place.path_injective (ho.plain Place.plain_nil) hplain (hpath.trans (by decide))
  -- the file that is blamed is the root, and its second line the directive
  obtain rfl : o = announced.first ["a"] :=
    Opened.eq_of_place_eq rfl ho ⟨["a"], hroot, .refl⟩ hplace
  obtain ⟨y', hcomes', hdefined'⟩ := comes_announced
  obtain ⟨rfl, -⟩ := hcomes.unique hcomes'
  rw [hdefined'] at hdefined
  cases hdefined

end Loader

end CueSheet
