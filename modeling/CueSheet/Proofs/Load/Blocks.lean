import CueSheet.Proofs.Load.Bodies

/-!
What a run of accepted lines comes to. The block that the end of the file finds open is the innermost
one without its brace; a name has a definition only from before, from the brace that closed its body,
or from a directive that made it an alias.
-/

namespace CueSheet

section Aliases

variable {path : String} {line : Nat} {renames : List (String × String)}

theorem Linker.procedure?_addAliases {file : Nat} {pairs : Bind} (ps : List Procedure) (s : Sheet)
    (name : String) :
    (addAliases path line file renames pairs ps s).2.procedure? name = s.procedure? name ∨
      s.procedure? name = none ∧ ∃ origin bind,
        (addAliases path line file renames pairs ps s).2.procedure? name =
          some ⟨name, .alias origin bind⟩ := by
  induction ps generalizing s with
  | nil => exact .inl rfl
  | cons p r ih =>
    simp only [addAliases]
    split
    · exact .inl rfl
    · next hnew =>
      have hnew : s.procedure? (newName renames p.name) = none := by simpa using hnew
      have hput := Sheet.procedure?_put s ⟨newName renames p.name, .alias ⟨file, p.name⟩ pairs⟩ name
      rcases ih (s.put _) with hsame | ⟨hnone, halias⟩
      · rw [hsame, hput]
        split
        · next hname =>
          subst hname
          exact .inr ⟨hnew, _, _, rfl⟩
        · exact .inl rfl
      · rw [hput] at hnone
        split at hnone
        · cases hnone
        · exact .inr ⟨hnone, halias⟩

theorem Linker.procedure?_link {target s : Sheet} (name : String) :
    (link path line target renames s).2.procedure? name = s.procedure? name ∨
      s.procedure? name = none ∧ ∃ origin bind,
        (link path line target renames s).2.procedure? name = some ⟨name, .alias origin bind⟩ := by
  simp only [link]
  split
  · exact .inl rfl
  · exact procedure?_addAliases _ s name

end Aliases

namespace Draft

variable {d : Draft} {ops : List Operation} {op : Operation} {name : String} {p : Procedure}

section Finish

def verdict (opened : List (Block × Nat)) : Except SyntaxError Unit :=
  match opened.getLast? with
  | none => .ok ()
  | some (block, line) => .error (.unclosed line block)

inductive Shallow : List (Block × Nat) → Prop
  | outside : Shallow []
  | inside (n : Nat) : Shallow [(.body, n)]
  | timed (n m : Nat) : Shallow [(.body, n), (.timeline, m)]

theorem Standing.exists_leaves {d' : Draft} (h : d.Standing ops d'.block) :
    ∃ opened, Leaves (brackets ops) opened ∧ Shallow opened ∧ d'.finish = verdict opened := by
  generalize hblock : d'.block = b? at h
  cases h with
  | outside hops =>
    refine ⟨[], .balanced hops, .outside, ?_⟩
    simp only [finish, hblock]
    rfl
  | @inside before inner name n header es hbefore hheader hinner =>
    refine ⟨[(.body, n)], ?_, .inside n, ?_⟩
    · rw [brackets_append, brackets_cons_some (bracket?_read hheader)]
      exact .opening (.balanced hbefore) hinner.balanced
    · simp only [finish, hblock]
      rfl
  | @timed before inner entered name n m header start es entries hbefore hheader hinner hstart hentered =>
    refine ⟨[(.body, n), (.timeline, m)], ?_, .timed n m, ?_⟩
    · rw [brackets_append, brackets_cons_some (bracket?_read hheader), brackets_append,
        brackets_cons_some (bracket?_read hstart), ← List.cons_append, ← List.append_assoc]
      refine .opening (.opening (.balanced hbefore) hinner.balanced) ?_
      rw [hentered.brackets]
      exact .nil
    · simp only [finish, hblock]
      rfl

end Finish

section Table

theorem stored_of_mention {s : Sheet} {other : String}
    (hp : (s.mention other).procedure? name = some p) (hdefined : p.isDefined = true) :
    s.procedure? name = some p := by
  rw [Sheet.procedure?_mention] at hp
  split at hp
  · next hname =>
    subst hname
    cases hold : s.procedure? other with
    | none =>
      rw [hold] at hp
      cases hp
      cases hdefined
    | some q =>
      rw [hold] at hp
      exact hp
  · exact hp

theorem procedure?_apply (hop : op.Accepted d) (hp : (op.apply d).sheet.procedure? name = some p)
    (hdefined : p.isDefined = true) :
    d.sheet.procedure? name = some p ∨
      (∃ n text b, op = .read n text ∧ Token.scan text = .ok [.symbol .rbrace] ∧ d.block = some b ∧
        b.timeline = none ∧ p = ⟨b.name, .body b.body⟩) ∨
      ∃ path n target renames origin bind, op = .link path n target renames ∧
        d.sheet.procedure? name = none ∧ p = ⟨name, .alias origin bind⟩ := by
  cases op with
  | finish => exact .inl hp
  | declare path n decl =>
    left
    simp only [Operation.apply] at hp
    split at hp
    · next hdeclare => rwa [Sheet.procedure?, (Linker.device?_declare hdeclare).1] at hp
    · exact hp
  | link path n target renames =>
    simp only [Operation.apply] at hp
    rcases Linker.procedure?_link name with hsame | ⟨hnone, origin, bind, halias⟩
    · exact .inl (hsame ▸ hp)
    · cases hp.symm.trans halias
      exact .inr (.inr ⟨path, n, target, renames, origin, bind, rfl, hnone, rfl⟩)
  | read n text =>
    rcases turns_read d n text with ⟨f, hread⟩ | ⟨ts, hscan, hturns⟩
    · rw [Operation.Accepted, hread] at hop
      cases hop
    · simp only [Operation.apply, Operation.Accepted] at hp hop
      generalize d.read n text = r at hturns hp hop
      cases hturns with
      | malformed _ | taken _ _ | lost _ _ _ => cases hop
      | mentioned _ | call _ _ _ _ _ _ => exact .inl (stored_of_mention hp hdefined)
      | @closed b hb ht _ =>
        have hput := Sheet.procedure?_put d.sheet ⟨b.name, .body b.body⟩ name
        simp only [accepted, hput] at hp
        split at hp
        · cases hp
          exact .inr (.inl ⟨n, text, b, rfl, hscan, hb, ht, rfl⟩)
        · exact .inl hp
      | _ => exact .inl hp

end Table

section Supplies

variable {es : List Element}

theorem Closes.append (h : Closes d ops name es) (more : List Operation) :
    Closes d (ops ++ more) name es := by
  cases h with
  | intro hheader hinner hbrace =>
    rw [List.append_assoc, List.cons_append, List.append_assoc, List.cons_append]
    exact .intro hheader hinner hbrace

theorem Supplies.append (h : Supplies d ops p) (more : List Operation) : Supplies d (ops ++ more) p := by
  cases h with
  | body h => exact .body (h.append more)
  | linked hnone halias =>
    rw [List.append_assoc, List.cons_append]
    exact .linked hnone halias

theorem Closes.stored (h : Closes d ops name es) (hops : d.Accepts ops) :
    (d.after ops).sheet.procedure? name = some ⟨name, .body es⟩ := by
  cases h with
  | @intro before inner later _ _ n m header brace hheader hinner hbrace =>
    obtain ⟨hbefore, hread, hrest⟩ := accepts_append_iff.1 hops
    obtain ⟨hlines, hclosed, -⟩ := accepts_append_iff.1 hrest
    rw [after_snoc] at hinner
    -- behind the header nothing of the body is there, behind the lines all of it
    have hblock := hinner.block hlines (block_procedure hheader hread) rfl
    have hsheet := sheet_closed hbrace hclosed hblock rfl
    have hstored := Sheet.procedure?_put ((Operation.apply (d.after before) (.read n header)).after
      inner).sheet ⟨name, .body ([] ++ es)⟩ name
    rw [← hsheet, if_pos rfl] at hstored
    have hlater := later_after (Operation.apply ((Operation.apply (d.after before)
      (.read n header)).after inner) (.read m brace)) later
    have hall := hlater.stored hstored rfl
    rwa [after_append, after, List.foldl_cons, ← after, after_append]

theorem Supplies.stored (h : Supplies d ops p) (hops : d.Accepts ops) :
    (d.after ops).sheet.procedure? p.name = some p := by
  cases h with
  | body h => exact h.stored hops
  | @linked before later path name n target renames origin bind _ halias =>
    have hlater := later_after (Operation.apply (d.after before) (.link path n target renames)) later
    rw [after_append]
    exact hlater.stored halias rfl

theorem supplies_of_stored (hd : d.block = none) (hops : d.Accepts ops)
    (hp : (d.after ops).sheet.procedure? name = some p) (hdefined : p.isDefined = true) :
    d.sheet.procedure? name = some p ∨ Supplies d ops p := by
  induction ops using List.reverseRecOn generalizing p with
  | nil => exact .inl hp
  | append_singleton ops op ih =>
    obtain ⟨hbefore, hop⟩ := accepts_snoc_iff.1 hops
    rw [after_snoc] at hp
    rcases procedure?_apply hop hp hdefined with
      hold | ⟨n, text, b, rfl, hscan, hb, ht, rfl⟩ | ⟨path, n, target, renames, origin, bind, rfl, hnone, rfl⟩
    · rcases ih hbefore hold hdefined with hold | hsupplies
      · exact .inl hold
      · exact .inr (hsupplies.append _)
    · have hstanding := standing_after hd hbefore
      rw [hb] at hstanding
      cases hstanding with
      | inside _ hheader hinner =>
        right
        rw [List.append_assoc, List.cons_append]
        exact .body (.intro hheader hinner hscan)
      | timed _ _ _ _ _ => cases ht
    · exact .inr (.linked hnone hp)

end Supplies

/-- After any run of accepted lines from a new file on, with any directives between them: the openings
that have no brace are those of at most one procedure and one timed block; the end of the file is
accepted just where every opening has its brace, and blames the innermost one that has none; and what
is defined was defined before, or its header and its brace stand in the run, with the elements of the
body between them, or it is an alias that was linked in the run. -/
theorem blocks_after (s : Sheet) (h : Accepts ⟨s, none⟩ ops) :
    let d := after ⟨s, none⟩ ops
    (∃ opened, Leaves (brackets ops) opened ∧ (∀ other, Leaves (brackets ops) other → other = opened) ∧
      Shallow opened ∧ d.finish = verdict opened) ∧
    (d.finish = .ok () ↔ Balanced (brackets ops)) ∧
    ∀ name p, p.isDefined = true → (d.sheet.procedure? name = some p ↔
      s.procedure? name = some p ∨ p.name = name ∧ Supplies ⟨s, none⟩ ops p) := by
  intro d
  obtain ⟨opened, hleaves, hshallow, hfinish⟩ := (standing_after rfl h).exists_leaves
  have hfinish : d.finish = verdict opened := hfinish
  refine ⟨⟨opened, hleaves, fun _ => hleaves.unique, hshallow, hfinish⟩, ?_, fun name p hp => ?_⟩
  · rw [hleaves.balanced_iff, hfinish]
    cases hshallow with
    | outside => exact iff_of_true rfl rfl
    | inside n => exact iff_of_false (by rintro ⟨⟩) (by rintro ⟨⟩)
    | timed n m => exact iff_of_false (by rintro ⟨⟩) (by rintro ⟨⟩)
  · constructor
    · intro hstored
      have hname := (Sheet.procedure?_eq_some hstored).2
      exact (supplies_of_stored rfl h hstored hp).imp_right fun hsupplies => ⟨hname, hsupplies⟩
    · rintro (hold | ⟨rfl, hsupplies⟩)
      · exact (later_after ⟨s, none⟩ ops).stored hold hp
      · exact hsupplies.stored h

def unclosedBody : List Operation :=
  [.read 1 "proc go \x7b".toList, .read 2 "timeline \x7b".toList,
    .declare "/a" 3 ⟨"fan", none, []⟩, .read 4 "fan(\"x\") for 5".toList, .read 5 "\x7d".toList,
    .read 6 "fan".toList, .read 7 "\x7d // go".toList, .read 8 "proc on \x7b".toList]

theorem blocks_after_unclosedBody :
    let s : Sheet := { file := 0, path := "/a" }
    Accepts ⟨s, none⟩ unclosedBody ∧ (after ⟨s, none⟩ unclosedBody).finish = .error (.unclosed 8 .body) ∧
      ¬ Balanced (brackets unclosedBody) ∧
      ∃ p, Supplies ⟨s, none⟩ unclosedBody p ∧ p.name = "go" ∧ p.body.length = 2 := by
  intro s
  have haccepts : Accepts ⟨s, none⟩ unclosedBody := by decide +kernel
  have hfinish : (after ⟨s, none⟩ unclosedBody).finish = .error (.unclosed 8 .body) := by
    decide +kernel
  have hgo : ((after ⟨s, none⟩ unclosedBody).sheet.procedure? "go").map
      (fun p => (p.isDefined, p.body.length)) = some (true, 2) := by
    decide +kernel
  obtain ⟨-, hbalanced, htable⟩ := blocks_after s haccepts
  refine ⟨haccepts, hfinish, fun hbs => ?_, ?_⟩
  · rw [hbalanced.2 hbs] at hfinish
    cases hfinish
  · obtain ⟨p, hp, hlength⟩ := Option.map_eq_some_iff.1 hgo
    obtain ⟨hdefined, hlength⟩ := Prod.mk.inj hlength
    rcases (htable "go" p hdefined).1 hp with hold | ⟨hname, hsupplies⟩
    · cases hold
    · exact ⟨p, hsupplies, hname, hlength⟩

end Draft

end CueSheet
