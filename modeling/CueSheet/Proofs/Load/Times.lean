import CueSheet.Proofs.Load.Names
import CueSheet.Proofs.Source.Statement

/-!
The times of a loaded program fit a word. A line whose time does not fit is refused, and whatever else
is put into a table of procedures has no times.
-/

namespace CueSheet

def Entry.Fits (e : Entry) : Prop := ∀ t, e.time = some t → t.Fits

def Element.Fits (e : Element) : Prop := ∀ es, e = .timed es → ∀ x ∈ es, x.Fits

def Sheet.Fits (s : Sheet) : Prop := ∀ name q, s.procedure? name = some q → ∀ e ∈ q.body, e.Fits

structure Draft.Fits (d : Draft) : Prop where
  sheet : d.sheet.Fits
  body : ∀ b, d.block = some b → ∀ e ∈ b.body, e.Fits
  entries : ∀ b t, d.block = some b → b.timeline = some t → ∀ e ∈ t.entries, e.Fits

namespace Sheet

variable {s s' : Sheet} {p : Procedure} {name : String}

theorem fits_put (hs : s.Fits) (hp : ∀ e ∈ p.body, e.Fits) : (s.put p).Fits := by
  intro name q hq
  rw [procedure?_put] at hq
  split at hq
  · cases hq
    exact hp
  · exact hs name q hq

theorem fits_mention (hs : s.Fits) (name : String) : (s.mention name).Fits := by
  simp only [mention]
  split
  · exact hs
  · exact fits_put hs (List.forall_mem_nil _)

theorem fits_define? {body : List Element} (hs : s.Fits) (hbody : ∀ e ∈ body, e.Fits)
    (h : s.define? name body = some s') : s'.Fits := by
  simp only [define?] at h
  split at h
  · cases h
  · cases h
    exact fits_put hs hbody

end Sheet

namespace Draft

variable {d : Draft} {s : Sheet} {b : OpenProcedure}

theorem fits_no_block (hs : s.Fits) : Fits ⟨s, none⟩ := ⟨hs, by simp, by simp⟩

theorem fits_block (hs : s.Fits) (hb : ∀ e ∈ b.body, e.Fits)
    (ht : ∀ t, b.timeline = some t → ∀ e ∈ t.entries, e.Fits) : Fits ⟨s, some b⟩ := by
  refine ⟨hs, fun b' hb' => ?_, fun b' t hb' => ?_⟩
  · cases hb'
    exact hb
  · cases hb'
    exact ht t

theorem Effect.fits {line : Nat} {r : Reading} (h : d.Effect line r) (hd : d.Fits) :
    r.draft.Fits := by
  cases h with
  | blank | malformed _ | taken _ _ => exact hd
  | mentioned name _ => exact ⟨Sheet.fits_mention hd.sheet name, hd.body, hd.entries⟩
  | opened _ _ _ => exact fits_block hd.sheet (by simp) (by simp)
  | @began b hb _ => exact fits_block hd.sheet (hd.body b hb) (by simp)
  | @entry b t ts s device hb ht hs _ =>
    refine fits_block hd.sheet (hd.body b hb) fun t' ht' => ?_
    obtain rfl := Option.some.inj ht'
    refine List.forall_mem_append.2 ⟨hd.entries b t hb ht, List.forall_mem_singleton.2 ?_⟩
    exact Line.fits_of_statement hs
  | @command b s device hb _ _ _ =>
    refine fits_block hd.sheet (List.forall_mem_append.2 ⟨hd.body b hb, ?_⟩) (hd.entries b · hb)
    exact List.forall_mem_singleton.2 nofun
  | @call b name hb _ _ =>
    refine fits_block (Sheet.fits_mention hd.sheet name)
      (List.forall_mem_append.2 ⟨hd.body b hb, ?_⟩) (hd.entries b · hb)
    exact List.forall_mem_singleton.2 nofun
  | @ended b t hb ht =>
    refine fits_block hd.sheet (List.forall_mem_append.2 ⟨hd.body b hb, ?_⟩) (by simp)
    refine List.forall_mem_singleton.2 fun es hes => ?_
    obtain rfl := Element.timed.inj hes
    exact hd.entries b t hb ht
  | @closed b s hb _ hs => exact fits_no_block (Sheet.fits_define? hd.sheet (hd.body b hb) hs)
  | lost _ _ _ => exact fits_no_block hd.sheet

end Draft

namespace Linker

variable {path : String} {line : Nat} {s s' target : Sheet} {renames : List (String × String)}

theorem fits_addAliases {file : Nat} {pairs : Bind} (ps : List Procedure) (hs : s.Fits) :
    (addAliases path line file renames pairs ps s).2.Fits := by
  induction ps generalizing s with
  | nil => exact hs
  | cons p r ih =>
    simp only [addAliases]
    split
    · exact hs
    · exact ih (Sheet.fits_put hs (List.forall_mem_nil _))

theorem fits_link (hs : s.Fits) : (link path line target renames s).2.Fits := by
  simp only [link]
  split
  · exact hs
  · exact fits_addAliases _ hs

end Linker

namespace Loader

variable {L : Loader} {visit : Visit} {chain : List Nat} {here : Place} {root : String}
  {x y : Linker × Draft} {line : List Char} {n : Nat} {p : Program}

theorem Handled.fits (h : Handled L visit chain here x line n y) (hx : x.2.Fits) : y.2.Fits := by
  cases h with
  | plain _ _ => exact (Draft.effect_read _ _ _).fits hx
  | device _ _ hdeclare =>
    obtain ⟨hprocedures, -⟩ := Linker.device?_declare hdeclare
    refine ⟨fun name q hq => hx.sheet name q ?_, hx.body, hx.entries⟩
    rwa [Sheet.procedure?, hprocedures] at hq
  | priority _ _ _ _ => exact hx
  | @load d _ _ _ target s _ _ _ _ _ hlink =>
    have hs : (Linker.link here.path n target d.renames x.2.sheet).2.Fits :=
      Linker.fits_link hx.sheet
    rw [hlink] at hs
    exact ⟨hs, hx.body, hx.entries⟩

theorem ReadsAll.fits {o : Opening} {texts : List (List Char × Nat)} (h : L.ReadsAll o texts y) :
    y.2.Fits :=
  h.keeps (P := fun x => x.2.Fits) (Draft.fits_no_block fun _ _ hq => by cases hq)
    fun _ _ _ _ _ hz hx => (handled_of_handle hz).fits hx

theorem fits_of_program (hL : L.reader = .standard) (h : L.program here root = .ok p) {i : Nat}
    {s : Sheet} (hs : p.Holds i s) : s.Fits := by
  obtain ⟨place, st, id, -, houtcome, hsheets, -⟩ := program_eq_ok h
  have hknown := (holds_iff hsheets).1 hs
  obtain ⟨hlt, -⟩ := List.getElem?_eq_some_iff.1 hknown
  have hplace := List.getElem?_eq_getElem ((underway_first hL houtcome).length ▸ hlt)
  exact finished_first hL (R := fun _ _ _ s => s.Fits) (fun _ _ _ _ _ _ hs => hs)
    (fun _ _ _ _ hreads _ => hreads.fits.sheet) houtcome ⟨hplace, hknown⟩

end Loader

end CueSheet
