import Rebase.Proofs.Discovery.Order
import Rebase.Proofs.Discovery.Records
import Rebase.Proofs.Elf.Accepted
import Rebase.Run

/-!
# Runs and the order of the sections

The sections of a source are kept by name, and a machine may list them in another order each time. A
run that succeeds shows no trace of it (`runIn_eq_run`). A run that fails can do so for several
reasons at once, and only where two sections with records are refused does the order decide which of
them is reported (`SameFault`).

- **Errors**: `SameKind` and `SameFault`, how far two errors are alike
- **Stages**: `agree_discoverIn`, `agree_prepareIn` and `finish_snd_congr`, for sources that are
  read alike
- **Orders**: `agree_runIn`, for one source that is listed in two orders
-/

namespace Rebase

open Fallible
open Discovery (RecordSection RecordsRefused)
open Elf (Section SectionTable)

/-! ## §1 Errors -/

/-- Two errors belong to the same part of the work. -/
def SameKind (e e' : Error) : Prop := e.kind = e'.kind

theorem SameKind.refl (e : Error) : SameKind e e := Eq.refl e.kind

/-- Two errors are one, or those of two sections of a source whose records are refused. -/
inductive SameFault (elf : Bytes) : Error → Error → Prop
  | refl (e : Error) : SameFault elf e e
  | refused {table : SectionTable} {s t : Section} {f f' : ElfSectionFault}
      (hread : SectionTable.read elf = .ok table) (hs : RecordSection table s)
      (ht : RecordSection table t) (hne : s ≠ t) (hf : RecordsRefused elf s f)
      (hf' : RecordsRefused elf t f') : SameFault elf (.elfSection f) (.elfSection f')

theorem SameFault.sameKind {elf : Bytes} {e e' : Error} (h : SameFault elf e e') :
    SameKind e e' := by
  cases h with
  | refl e => exact .refl e
  | refused => rfl

/-! ## §2 Stages -/

section Stages

variable {order₁ order₂ : SectionTable → List Section} {before after : Bytes} {scan : Bool}
  (hread : Agree SameKind (SectionTable.read before) (SectionTable.read after))
  (hfound : ∀ table, SectionTable.read before = .ok table →
    Agree (fun _ _ => True) (Discovery.inOrder scan before table (order₁ table))
      (Discovery.inOrder scan after table (order₂ table)))

include hread hfound

/-- **Discovery** ends alike in two sources that are read alike, if it does for each table. A fault
of a section is the only kind of error in which the two can differ. -/
theorem agree_discoverIn :
    Agree SameKind (discoverIn order₁ scan before) (discoverIn order₂ scan after) :=
  hread.bind fun table htable => (hfound table htable).mapError Error.elfSection fun _ _ _ => rfl

/-- **Preparing a run** ends alike on two such sources. -/
theorem agree_prepareIn (pe : Bytes) :
    Agree SameKind (prepareIn order₁ scan before pe) (prepareIn order₂ scan after pe) :=
  -- The same job is made for the same addresses.
  (agree_discoverIn hread hfound).bind fun d _ => .refl SameKind.refl (jobFor d pe)

end Stages

/-- Runs that were prepared alike leave the same destination. -/
theorem finish_snd_congr {similar : Error → Error → Prop} {x y : Except Error (Option Job)}
    (h : Agree similar x y) (options : Options) (pe : Bytes) :
    (finish options pe x).2 = (finish options pe y).2 := by
  cases h with
  | ok job => rfl
  | error h => rfl

/-- **A run looks at the source** only for what is discovered in it. -/
theorem runIn_congr {order order' : SectionTable → List Section} {options : Options}
    {elf elf' : Bytes}
    (h : discoverIn order options.scan elf = discoverIn order' options.scan elf') (pe : Bytes) :
    runIn order options elf pe = runIn order' options elf' pe := by
  rw [runIn, runIn, prepareIn, prepareIn, h]

/-! ## §3 Orders -/

section Orders

variable {order₁ order₂ : SectionTable → List Section}
  (ho₁ : ∀ table, (order₁ table).Perm table.sections)
  (ho₂ : ∀ table, (order₂ table).Perm table.sections)

include ho₁ ho₂

/-- What is discovered in a source that is listed in two orders. -/
theorem discoverIn_perm (scan : Bool) (elf : Bytes) :
    Agree (SameFault elf) (discoverIn order₁ scan elf) (discoverIn order₂ scan elf) := by
  refine (Agree.refl SameFault.refl (SectionTable.read elf)).bind fun table htable => ?_
  refine (Discovery.inOrder_perm scan elf table (ho₁ table) (ho₂ table)).mapError _ fun f f' h => ?_
  rcases h with rfl | ⟨s, t, hs, ht, hne, hf, hf'⟩
  · exact .refl _
  · have hrecords := fun s => Discovery.mem_filter_holdsRecords_iff (s := s) htable (.refl _)
    exact .refused htable ((hrecords s).mp hs) ((hrecords t).mp ht) hne
      (Discovery.sectionAddresses_eq_error_iff.mp hf)
        (Discovery.sectionAddresses_eq_error_iff.mp hf')

private theorem prepareIn_perm (scan : Bool) (elf pe : Bytes) :
    Agree (SameFault elf) (prepareIn order₁ scan elf pe) (prepareIn order₂ scan elf pe) :=
  (discoverIn_perm ho₁ ho₂ scan elf).bind fun d _ => .refl SameFault.refl (jobFor d pe)

/-- **Two runs on a source** that is listed in two orders end alike, if both search for pointers or
both do not. -/
theorem agree_runIn {first second : Options} (hscan : first.scan = second.scan) (elf pe : Bytes) :
    Agree (SameFault elf) (runIn order₁ first elf pe).1 (runIn order₂ second elf pe).1 := by
  rw [runIn_fst, runIn_fst, hscan]
  exact (prepareIn_perm ho₁ ho₂ second.scan elf pe).map _

end Orders

/-- A source image with two sections of records, which state sizes that no record has. -/
def refusedTwice : Bytes :=
  Elf.imageOf 0 (List.zipWith Section.headerBytes
    [⟨".rela.data", 0, 192, 24, 4, 1⟩, ⟨".rela.rodata", 0, 192, 24, 4, 2⟩] [0, 11])
    (".rela.data".toUTF8.data.toList ++ 0 :: ".rela.rodata".toUTF8.data.toList ++ [0])

/-- Which of the two sections is named is up to the order, so there can be no equality in
`agree_runIn`. -/
theorem runIn_refusedTwice (options : Options) (pe : Bytes) :
    (runIn SectionTable.sections options refusedTwice pe).1 =
        .error (.elfSection (.recordTooSmall ".rela.data" 1)) ∧
      (runIn (fun table => table.sections.reverse) options refusedTwice pe).1 =
        .error (.elfSection (.recordTooSmall ".rela.rodata" 2)) := by
  have hfound : ∀ scan, (discoverIn SectionTable.sections scan refusedTwice).map Discovery.total =
        .error (.elfSection (.recordTooSmall ".rela.data" 1)) ∧
      (discoverIn (fun table => table.sections.reverse) scan refusedTwice).map Discovery.total =
        .error (.elfSection (.recordTooSmall ".rela.rodata" 2)) := by
    decide +kernel
  obtain ⟨hnames, hreverse⟩ := hfound options.scan
  rw [runIn_fst, runIn_fst, prepareIn, prepareIn, map_eq_error_iff.mp hnames,
    map_eq_error_iff.mp hreverse]
  exact ⟨rfl, rfl⟩

/-- **A run that succeeds** does so in every order, and leaves the same destination. -/
theorem runIn_eq_run {order : SectionTable → List Section} {options : Options} {elf pe : Bytes}
    (ho : ∀ table, (order table).Perm table.sections) {outcome : Outcome}
    (h : (runIn order options elf pe).1 = .ok outcome) :
    runIn order options elf pe = run options elf pe := by
  have hagree := agree_runIn ho (fun table => .refl table.sections) (rfl : options.scan = _) elf pe
  have hsnd := finish_snd_congr
    (prepareIn_perm ho (fun table => .refl table.sections) options.scan elf pe) options pe
  exact Prod.ext (h.trans (hagree.eq_ok_iff.mp h).symm) hsnd

end Rebase
