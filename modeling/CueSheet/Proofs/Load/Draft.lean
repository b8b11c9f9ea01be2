import CueSheet.Load.Pipe
import CueSheet.Proofs.Load.Reading
import CueSheet.Proofs.Load.Sheet

/-!
Drafts whose names lead somewhere: the sheet is sound, and it supports all that stands in the open
block. Every line keeps this, accepted or refused, and so does the pipe that carries the lines.
-/

namespace CueSheet

structure Draft.Sound (known : Nat → Sheet → Prop) (i : Nat) (d : Draft) : Prop where
  sheet : d.sheet.Sound known i
  body : ∀ b, d.block = some b → ∀ e ∈ b.body, d.sheet.Supports e
  entries : ∀ b t, d.block = some b → b.timeline = some t →
    ∀ e ∈ t.entries, d.sheet.Declares e.device

namespace Draft

variable {known : Nat → Sheet → Prop} {i : Nat} {d : Draft}

theorem Sound.mono {known' : Nat → Sheet → Prop} (h : d.Sound known i)
    (hk : ∀ i t, known i t → known' i t) : d.Sound known' i :=
  { h with sheet := h.sheet.mono hk }

theorem Sound.grow {s : Sheet} (h : d.Sound known i) (hs : s.Sound known i)
    (hg : d.sheet.Grows s) : Sound known i { d with sheet := s } :=
  ⟨hs, fun b hb e he => (h.body b hb e he).grow hg,
    fun b t hb ht e he => (h.entries b t hb ht e he).grow hg⟩

theorem sound_no_block {s : Sheet} (hs : s.Sound known i) : Sound known i ⟨s, none⟩ :=
  ⟨hs, by simp, by simp⟩

theorem sound_block {s : Sheet} {b : OpenProcedure} (hs : s.Sound known i)
    (hb : ∀ e ∈ b.body, s.Supports e) (ht : b.timeline = none) : Sound known i ⟨s, some b⟩ := by
  refine ⟨hs, ?_, ?_⟩
  · rintro _ ⟨⟩
    exact hb
  · rintro _ t ⟨⟩ h
    rw [ht] at h
    cases h

theorem sound_timeline {s : Sheet} {b : OpenProcedure} {t : OpenTimeline} (hs : s.Sound known i)
    (hb : ∀ e ∈ b.body, s.Supports e) (ht : ∀ e ∈ t.entries, s.Declares e.device) :
    Sound known i ⟨s, some { b with timeline := some t }⟩ := by
  refine ⟨hs, ?_, ?_⟩
  · rintro _ ⟨⟩
    exact hb
  · rintro _ _ ⟨⟩ ⟨⟩
    exact ht

theorem Effect.sound {line : Nat} {r : Reading} (h : d.Effect line r) (hd : d.Sound known i) :
    r.draft.Sound known i := by
  cases h with
  | blank | malformed _ | taken _ _ => exact hd
  | mentioned name _ =>
    exact hd.grow (Sheet.sound_mention hd.sheet name) (Sheet.grows_mention d.sheet name)
  | opened _ _ _ => exact sound_block hd.sheet (by simp) rfl
  | @began b hb _ => exact sound_timeline hd.sheet (hd.body b hb) (by simp)
  | @entry b t _ s device hb ht _ hdevice =>
    refine sound_timeline hd.sheet (hd.body b hb) (List.forall_mem_append.2 ⟨hd.entries b t hb ht, ?_⟩)
    exact List.forall_mem_singleton.2 (Sheet.declares_of_device? hd.sheet hdevice).1
  | @command b s device hb ht hdevice _ =>
    refine sound_block hd.sheet (List.forall_mem_append.2 ⟨hd.body b hb, ?_⟩) ht
    refine List.forall_mem_singleton.2 ⟨fun x hx => ?_, by simp [Element.callee?]⟩
    obtain rfl := List.mem_singleton.1 hx
    exact (Sheet.declares_of_device? hd.sheet hdevice).1
  | @call b name hb ht _ =>
    have hgrows := Sheet.grows_mention d.sheet name
    refine sound_block (Sheet.sound_mention hd.sheet name) (List.forall_mem_append.2 ⟨?_, ?_⟩) ht
    · exact fun e he => (hd.body b hb e he).grow hgrows
    · refine List.forall_mem_singleton.2 ⟨by simp [Element.devices], ?_⟩
      rintro callee ⟨⟩
      rw [Sheet.procedure?_mention, if_pos rfl]
      rfl
  | @ended b t hb ht =>
    refine sound_block hd.sheet (List.forall_mem_append.2 ⟨hd.body b hb, ?_⟩) rfl
    refine List.forall_mem_singleton.2 ⟨fun device hdevice => ?_, by simp [Element.callee?]⟩
    obtain ⟨e, he, rfl⟩ := List.mem_map.1 hdevice
    exact hd.entries b t hb ht e he
  | @closed b s hb _ hs => exact sound_no_block (Sheet.sound_define? hd.sheet (hd.body b hb) hs)
  | lost _ _ _ => exact sound_no_block hd.sheet

theorem sound_read (h : d.Sound known i) (line : Nat) (text : List Char) :
    (d.read line text).draft.Sound known i :=
  (effect_read d line text).sound h

end Draft

namespace Pipe

def Keeps (P : Draft → Prop) (r : LineReader) : Prop :=
  ∀ n text d reading, P d → r n text d = some reading → P reading.draft

variable {P : Draft → Prop} {r : LineReader} {p p' : Pipe}

theorem keeps_work (hr : Keeps P r) (h : P p.draft) : P (p.work r).draft := by
  simp only [work]
  split
  · exact h
  · split
    · exact h
    · split
      · exact h
      · next reading hread => exact hr _ _ _ _ h hread
  · exact h

theorem keeps_settle (hr : Keeps P r) (h : P p.draft) : P (p.settle r).draft := by
  have hn : ∀ n : Nat, P (n.repeat (work r) p).draft := by
    intro n
    induction n with
    | zero => exact h
    | succ n ih => exact keeps_work hr ih
  exact hn _

theorem send?_draft {m : Message} (h : p.send? m = some p') : p'.draft = p.draft := by
  simp only [send?] at h
  split at h
  · cases h
  · cases h; rfl

theorem keeps_feed? {n : Nat} {text : List Char} (hr : Keeps P r) (h : P p.draft)
    (hf : p.feed? r n text = some p') : P p'.draft := by
  obtain ⟨p₁, h₁, rfl⟩ := Option.map_eq_some_iff.1 hf
  exact keeps_settle hr (by rw [send?_draft h₁]; exact h)

theorem keeps_pause? (hr : Keeps P r) (h : P p.draft) (hf : p.pause? r = some p') : P p'.draft := by
  obtain ⟨hm, -⟩ := Option.filter_eq_some_iff.1 hf
  obtain ⟨p₁, h₁, rfl⟩ := Option.map_eq_some_iff.1 hm
  exact keeps_settle hr (by rw [send?_draft h₁]; exact h)

theorem keeps_resume (hr : Keeps P r) (h : P p.draft) : P (p.resume r).draft := by
  simp only [resume]
  split
  · exact keeps_settle hr h
  · exact h

theorem keeps_standard (known : Nat → Sheet → Prop) (i : Nat) :
    Keeps (Draft.Sound known i) .standard := by
  intro n text d reading h hread
  obtain rfl : d.read n text = reading := Option.some.inj hread
  exact Draft.sound_read h n text

end Pipe

end CueSheet
