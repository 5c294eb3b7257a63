import Rebase.Journal
import Rebase.Proofs.Discovery.Order
import Rebase.Proofs.Run.Job

/-!
# What a journal tells

A journal goes through the stages of a run a second time, to say what each of them found. Here it is
compared with the run: an event is in the journal exactly when the run found or decided what it
tells (`Journal.ofRun_tells`), and a dry run tells the same as the other one, with one event more
(`Journal.ofRun_dryRun`).

- **Steps**: `mem_behind_iff` and `mem_successes_iff`
- **Stages**: `Event.stage`, and where the events of a stage come from
- **Runs**: `mem_ofRun_destination_iff` and its like, which run an event comes from, and `Tells`
- **Dry runs**: `ofRun_dryRun`
-/

namespace Rebase

open BaseRelocation Fallible
open Elf (SectionTable)

/-- The part of a run that an event belongs to. -/
inductive Stage where
  | source
  | discovery
  | destination

/-- The part of a run that an event belongs to. -/
def Event.stage : Event → Stage
  | .elfHeader _ | .elfSection .. => .source
  | .record .. | .scanning .. | .pointer _ | .discovered _ => .discovery
  | .nothingFound | .peHeaders _ | .sectionTooSmall .. | .replacing .. | .appending _ | .dryRun =>
    .destination

namespace Journal

variable {options : Options} {scan dryRun : Bool} {elf pe : Bytes} {table : SectionTable}
  {event : Event}

/-! ## §1 Steps -/

theorem mem_behind_iff {ε α : Type} {step : Except ε α} {events : α → List Event} :
    event ∈ behind step events ↔ ∃ a, step = .ok a ∧ event ∈ events a := by
  cases step <;> simp [behind]

private theorem behind_append {ε α : Type} (step : Except ε α) (first second : α → List Event) :
    behind step (fun a => first a ++ second a) = behind step first ++ behind step second := by
  cases step <;> simp [behind]

private theorem behind_bind {ε α β : Type} (step : Except ε α) (next : α → Except ε β)
    (events : β → List Event) :
    behind (step >>= next) events = behind step fun a => behind (next a) events := by
  cases step <;> rfl

private theorem behind_mapError {ε ε' α : Type} (step : Except ε α) (f : ε → ε')
    (events : α → List Event) :
    behind (step.mapError f) events = behind step events := by
  cases step <;> rfl

section Successes

variable {α β ε : Type} {step : α → Except ε β} {xs : List α} {y : β}

private theorem exists_of_mem_successes (h : y ∈ successes step xs) : ∃ x ∈ xs, step x = .ok y := by
  induction xs with
  | nil => cases h
  | cons x rest ih =>
    rw [successes] at h
    split at h
    · next hx =>
      rcases List.mem_cons.mp h with rfl | h
      · exact ⟨x, List.mem_cons_self, hx⟩
      · obtain ⟨x', hmem, hx'⟩ := ih h
        exact ⟨x', List.mem_cons_of_mem _ hmem, hx'⟩
    · cases h

/-- Where no step fails, all results are there. -/
theorem mem_successes_iff (hall : ∀ x ∈ xs, ∃ y, step x = .ok y) :
    y ∈ successes step xs ↔ ∃ x ∈ xs, step x = .ok y := by
  refine ⟨exists_of_mem_successes, ?_⟩
  rintro ⟨x, hmem, hx⟩
  -- The list is read up to its first failure, and there is none.
  induction xs with
  | nil => cases hmem
  | cons first rest ih =>
    rw [List.forall_mem_cons] at hall
    obtain ⟨⟨y', hfirst⟩, hrest⟩ := hall
    rw [successes, hfirst]
    rcases List.mem_cons.mp hmem with rfl | hmem
    · rw [Except.ok.inj (hfirst.symm.trans hx)]
      exact List.mem_cons_self
    · exact List.mem_cons_of_mem _ (ih hrest hmem)

end Successes

/-! ## §2 Stages -/

private theorem mem_ofSource_iff : event ∈ ofSource elf ↔
    ∃ header, Elf.Header.read elf = .ok header ∧
      (event = .elfHeader header ∨ event ∈ ofSections header elf) := by
  simp only [ofSource, mem_behind_iff, List.mem_cons]

private theorem exists_of_mem_ofSections {header : Elf.Header} (h : event ∈ ofSections header elf) :
    ∃ index s, event = .elfSection index s := by
  unfold ofSections at h
  split at h
  · cases h
  · obtain ⟨names, _, h⟩ := mem_behind_iff.mp h
    obtain ⟨index, _, h⟩ := exists_of_mem_successes h
    obtain ⟨s, _, rfl⟩ := map_eq_ok_iff.mp h
    exact ⟨index, s, rfl⟩

/-- Of sections that could all be read, all are told. -/
theorem elfSection_mem_ofSections_iff {header : Elf.Header} {found : List Elf.Section}
    (hfound : header.sections elf = .ok found) (index : Nat) (s : Elf.Section) :
    .elfSection index s ∈ ofSections header elf ↔ found[index]? = some s := by
  unfold Elf.Header.sections at hfound
  unfold ofSections
  split at hfound
  · next hnone =>
    cases hfound
    simp [hnone]
  · next hsome =>
    obtain ⟨names, hnames, hfound⟩ := bind_eq_ok_iff.mp hfound
    obtain ⟨hsteps, hread⟩ := mapM_range_eq_ok_iff_getElem?.mp hfound
    have hall : ∀ i ∈ List.range header.sectionCount.toNat, ∃ event,
        (header.sectionAt elf names i).map (Event.elfSection i) = .ok event := by
      intro i hi
      obtain ⟨s, hs⟩ := hsteps i (List.mem_range.mp hi)
      exact ⟨_, map_eq_ok_iff.mpr ⟨s, hs, rfl⟩⟩
    rw [if_neg hsome, mem_behind_iff, hread]
    simp only [hnames, Except.ok.injEq, exists_eq_left', mem_successes_iff hall, List.mem_range,
      map_eq_ok_iff, Event.elfSection.injEq]
    constructor
    · rintro ⟨_, hi, _, hs, rfl, rfl⟩
      exact ⟨hi, hs⟩
    · rintro ⟨hi, hs⟩
      exact ⟨index, hi, s, hs, rfl, rfl⟩

private theorem exists_of_mem_ofRecords (h : event ∈ ofRecords elf table) :
    ∃ name machine address, event = .record name machine address := by
  obtain ⟨events, hevents, h⟩ := List.mem_flatten.mp h
  obtain ⟨s, _, hs⟩ := exists_of_mem_successes hevents
  obtain ⟨addresses, _, rfl⟩ := map_eq_ok_iff.mp hs
  obtain ⟨address, _, rfl⟩ := List.mem_map.mp h
  exact ⟨s.name, table.machine, address, rfl⟩

/-- The records that are told are those of the sections, as long as none of these is refused. -/
theorem exists_record_mem_ofRecords_iff {found : AddressSet}
    (hfound : Discovery.recordedAddresses table.machine elf table.sections = .ok found)
    (address : UInt64) :
    (∃ name machine, .record name machine address ∈ ofRecords elf table) ↔ address ∈ found := by
  rw [Discovery.mem_recordedAddresses_iff hfound, ofRecords]
  have hall := Discovery.exists_recordedAddresses_iff.mp ⟨found, hfound⟩
  have hsteps : ∀ s ∈ table.sections.filter Discovery.holdsRecords, ∃ events,
      ((Discovery.sectionAddresses table.machine elf s).map fun addresses =>
        addresses.map (Event.record s.name table.machine)) = .ok events := by
    intro s hs
    obtain ⟨addresses, haddresses⟩ := hall s hs
    exact ⟨_, map_eq_ok_iff.mpr ⟨addresses, haddresses, rfl⟩⟩
  simp only [List.mem_flatten, mem_successes_iff hsteps, map_eq_ok_iff]
  constructor
  · rintro ⟨name, machine, _, ⟨s, hs, addresses, haddresses, rfl⟩, hmem⟩
    obtain ⟨a, ha, heq⟩ := List.mem_map.mp hmem
    cases heq
    exact ⟨s, hs, addresses, haddresses, ha⟩
  · rintro ⟨s, hs, addresses, haddresses, ha⟩
    exact ⟨s.name, table.machine, _, ⟨s, hs, addresses, haddresses, rfl⟩, List.mem_map_of_mem ha⟩

private theorem mem_ofScan_iff : event ∈ ofScan elf table ↔
    ∃ s range, Discovery.scanTarget table table.sections = some (s, range) ∧
      (event = .scanning s range ∨ ∃ found p,
        Discovery.scan elf table table.sections = .ok found ∧ p ∈ found ∧ event = .pointer p) := by
  unfold ofScan
  cases Discovery.scanTarget table table.sections with
  | none => simp
  | some target =>
    obtain ⟨s, range⟩ := target
    simp only [List.mem_cons, mem_behind_iff, List.mem_map, Option.some.injEq, Prod.mk.injEq]
    constructor
    · rintro (h | ⟨found, hfound, p, hp, rfl⟩)
      · exact ⟨s, range, ⟨rfl, rfl⟩, .inl h⟩
      · exact ⟨s, range, ⟨rfl, rfl⟩, .inr ⟨found, p, hfound, hp, rfl⟩⟩
    · rintro ⟨_, _, ⟨rfl, rfl⟩, h | ⟨found, p, hfound, hp, rfl⟩⟩
      · exact .inl h
      · exact .inr ⟨found, hfound, p, hp, rfl⟩

/-- The pointers that are told are those that the search finds. -/
theorem pointer_mem_ofScan_iff {p : Discovery.Pointer} : .pointer p ∈ ofScan elf table ↔
    ∃ found, Discovery.scan elf table table.sections = .ok found ∧ p ∈ found := by
  rw [mem_ofScan_iff]
  constructor
  · rintro ⟨s, range, _, h | ⟨found, _, hfound, hp, h⟩⟩
    · cases h
    · cases h
      exact ⟨found, hfound, hp⟩
  · rintro ⟨found, hfound, hp⟩
    -- Where there is nothing to search, nothing is found.
    cases htarget : Discovery.scanTarget table table.sections with
    | none =>
      rw [Discovery.scan, htarget] at hfound
      cases hfound
      cases hp
    | some target => exact ⟨target.1, target.2, rfl, .inr ⟨found, p, hfound, hp, rfl⟩⟩

private theorem mem_ofDiscovery_iff : event ∈ ofDiscovery scan elf table ↔
    event ∈ ofRecords elf table ∨ ∃ recorded,
      Discovery.recordedAddresses table.machine elf table.sections = .ok recorded ∧
        (scan = true ∧ event ∈ ofScan elf table ∨
          ∃ d, Discovery.ofImage scan elf table = .ok d ∧ event = .discovered d) := by
  simp only [ofDiscovery, List.mem_append, mem_behind_iff, List.mem_singleton,
    List.mem_ite_nil_right]

private theorem record_mem_ofDiscovery_iff {name : String} {machine : Elf.Machine}
    {address : UInt64} :
    .record name machine address ∈ ofDiscovery scan elf table ↔
      .record name machine address ∈ ofRecords elf table := by
  rw [mem_ofDiscovery_iff]
  refine ⟨?_, .inl⟩
  rintro (h | ⟨_, _, ⟨_, h⟩ | ⟨_, _, he⟩⟩)
  · exact h
  · obtain ⟨_, _, _, he | ⟨_, _, _, _, he⟩⟩ := mem_ofScan_iff.mp h <;> cases he
  · cases he

private theorem scanning_mem_ofDiscovery_iff {s : Elf.Section} {range : Elf.AddressRange} :
    .scanning s range ∈ ofDiscovery scan elf table ↔
      ∃ recorded, Discovery.recordedAddresses table.machine elf table.sections = .ok recorded ∧
        scan = true ∧ Discovery.scanTarget table table.sections = some (s, range) := by
  rw [mem_ofDiscovery_iff]
  constructor
  · rintro (h | ⟨recorded, hrecorded, ⟨hscan, h⟩ | ⟨_, _, he⟩⟩)
    · obtain ⟨_, _, _, he⟩ := exists_of_mem_ofRecords h
      cases he
    · obtain ⟨_, _, htarget, he | ⟨_, _, _, _, he⟩⟩ := mem_ofScan_iff.mp h
      · cases he
        exact ⟨recorded, hrecorded, hscan, htarget⟩
      · cases he
    · cases he
  · rintro ⟨recorded, hrecorded, hscan, htarget⟩
    exact .inr ⟨recorded, hrecorded, .inl ⟨hscan, mem_ofScan_iff.mpr ⟨s, range, htarget, .inl rfl⟩⟩⟩

private theorem pointer_mem_ofDiscovery_iff {p : Discovery.Pointer} :
    .pointer p ∈ ofDiscovery scan elf table ↔
    ∃ recorded, Discovery.recordedAddresses table.machine elf table.sections = .ok recorded ∧
      scan = true ∧ ∃ found, Discovery.scan elf table table.sections = .ok found ∧ p ∈ found := by
  rw [mem_ofDiscovery_iff]
  constructor
  · rintro (h | ⟨recorded, hrecorded, ⟨hscan, h⟩ | ⟨_, _, he⟩⟩)
    · obtain ⟨_, _, _, he⟩ := exists_of_mem_ofRecords h
      cases he
    · exact ⟨recorded, hrecorded, hscan, pointer_mem_ofScan_iff.mp h⟩
    · cases he
  · rintro ⟨recorded, hrecorded, hscan, h⟩
    exact .inr ⟨recorded, hrecorded, .inl ⟨hscan, pointer_mem_ofScan_iff.mpr h⟩⟩

private theorem discovered_mem_ofDiscovery_iff {d : Discovery} :
    .discovered d ∈ ofDiscovery scan elf table ↔
    Discovery.ofImage scan elf table = .ok d := by
  rw [mem_ofDiscovery_iff]
  constructor
  · rintro (h | ⟨_, _, ⟨_, h⟩ | ⟨_, hd, he⟩⟩)
    · obtain ⟨_, _, _, he⟩ := exists_of_mem_ofRecords h
      cases he
    · obtain ⟨_, _, _, he | ⟨_, _, _, _, he⟩⟩ := mem_ofScan_iff.mp h <;> cases he
    · cases he
      exact hd
  · exact fun hd => .inr ⟨_, (Discovery.ofImage_eq_ok_iff.mp hd).1, .inr ⟨d, hd, rfl⟩⟩

private theorem eq_planned_iff {size : Nat} {plan : Pe.Plan} : event = planned size plan ↔
    (∃ index s, plan = .replace index s ∧ event = .replacing s size) ∨
      ∃ place, plan = .append place ∧ event = .appending place := by
  cases plan <;> simp [planned]

/-- The events of the choice of a place. -/
theorem mem_ofPlan_iff {h : Pe.Headers} {fileSize tableSize : Nat} :
    event ∈ ofPlan h fileSize tableSize ↔
      (∃ s index, h.relocationSection? = some (s, index) ∧ s.rawSize.toNat < tableSize ∧
        tableSize < UInt32.size ∧ event = .sectionTooSmall s tableSize) ∨
      ∃ plan, Pe.Plan.make h fileSize tableSize = .ok plan ∧ event = planned tableSize plan := by
  rw [ofPlan, List.mem_append, mem_behind_iff]
  simp only [List.mem_singleton]
  refine or_congr_left ?_
  cases h.relocationSection? with
  | none => simp
  | some found =>
    simp only [List.mem_ite_nil_right, List.mem_singleton, Option.some.injEq, Prod.ext_iff]
    constructor
    · rintro ⟨⟨hsmall, hlt⟩, rfl⟩
      exact ⟨found.1, found.2, ⟨rfl, rfl⟩, hsmall, hlt, rfl⟩
    · rintro ⟨s, index, ⟨rfl, rfl⟩, hsmall, hlt, rfl⟩
      exact ⟨⟨hsmall, hlt⟩, rfl⟩

private theorem mem_ofPatch_iff {t : Table} : event ∈ ofPatch dryRun pe t ↔
    ∃ h, Pe.Headers.read pe = .ok h ∧ (event = .peHeaders h ∨ event ∈ ofPlan h pe.size t.size ∨
      ∃ plan, Pe.Plan.make h pe.size t.size = .ok plan ∧ dryRun = true ∧ event = .dryRun) := by
  simp only [ofPatch, mem_behind_iff, List.mem_append, List.mem_cons, List.mem_ite_nil_right,
    List.not_mem_nil, or_false, or_assoc]

private theorem mem_ofAddresses_iff {d : Discovery} : event ∈ ofAddresses options pe d ↔
    d.total = 0 ∧ event = .nothingFound ∨ d.total ≠ 0 ∧ ∃ t,
      Table.ofAddresses d.addresses.toList = .ok t ∧ event ∈ ofPatch options.dryRun pe t := by
  unfold ofAddresses
  split
  · next hnone => simp [hnone]
  · next hsome => simp [hsome, mem_behind_iff]

private theorem stage_of_mem_ofSource (h : event ∈ ofSource elf) : event.stage = .source := by
  obtain ⟨header, _, rfl | h⟩ := mem_ofSource_iff.mp h
  · rfl
  · obtain ⟨index, s, rfl⟩ := exists_of_mem_ofSections h
    rfl

private theorem stage_of_mem_ofDiscovery (h : event ∈ ofDiscovery scan elf table) :
    event.stage = .discovery := by
  rcases mem_ofDiscovery_iff.mp h with h | ⟨_, _, ⟨_, h⟩ | ⟨_, _, rfl⟩⟩
  · obtain ⟨name, machine, address, rfl⟩ := exists_of_mem_ofRecords h
    rfl
  · obtain ⟨s, range, _, rfl | ⟨_, _, _, _, rfl⟩⟩ := mem_ofScan_iff.mp h <;> rfl
  · rfl

private theorem stage_of_mem_ofAddresses {d : Discovery} (h : event ∈ ofAddresses options pe d) :
    event.stage = .destination := by
  rcases mem_ofAddresses_iff.mp h with ⟨_, rfl⟩ | ⟨_, t, _, h⟩
  · rfl
  · obtain ⟨headers, _, rfl | h | ⟨_, _, _, rfl⟩⟩ := mem_ofPatch_iff.mp h
    · rfl
    · rcases mem_ofPlan_iff.mp h with ⟨_, _, _, _, _, rfl⟩ | ⟨plan, _, rfl⟩
      · rfl
      · cases plan <;> rfl
    · rfl

/-! ## §3 Runs -/

private theorem mem_ofRun_iff : event ∈ ofRun options elf pe ↔ event ∈ ofSource elf ∨
    (∃ table, SectionTable.read elf = .ok table ∧ event ∈ ofDiscovery options.scan elf table) ∨
      ∃ d, discover options.scan elf = .ok d ∧ event ∈ ofAddresses options pe d := by
  simp only [ofRun, List.mem_append, mem_behind_iff, discover_eq_ok_iff, and_or_left, exists_or]
  refine or_congr_right (or_congr_right ?_)
  constructor
  · rintro ⟨table, htable, d, hd, h⟩
    exact ⟨d, ⟨table, htable, hd⟩, h⟩
  · rintro ⟨d, ⟨table, htable, hd⟩, h⟩
    exact ⟨table, htable, d, hd, h⟩

/-- An event of the source comes from reading it. -/
theorem mem_ofRun_source_iff (hstage : event.stage = .source) :
    event ∈ ofRun options elf pe ↔ event ∈ ofSource elf := by
  rw [mem_ofRun_iff]
  refine ⟨?_, .inl⟩
  rintro (h | ⟨_, _, h⟩ | ⟨_, _, h⟩)
  · exact h
  · cases hstage.symm.trans (stage_of_mem_ofDiscovery h)
  · cases hstage.symm.trans (stage_of_mem_ofAddresses h)

/-- An event of the discovery comes from a source that could be read. -/
theorem mem_ofRun_discovery_iff (hstage : event.stage = .discovery) : event ∈ ofRun options elf pe ↔
    ∃ table, SectionTable.read elf = .ok table ∧ event ∈ ofDiscovery options.scan elf table := by
  rw [mem_ofRun_iff]
  refine ⟨?_, fun h => .inr (.inl h)⟩
  rintro (h | h | ⟨_, _, h⟩)
  · cases hstage.symm.trans (stage_of_mem_ofSource h)
  · exact h
  · cases hstage.symm.trans (stage_of_mem_ofAddresses h)

private theorem mem_ofRun_discovery_iff_of_read (hstage : event.stage = .discovery)
    (hread : SectionTable.read elf = .ok table) :
    event ∈ ofRun options elf pe ↔ event ∈ ofDiscovery options.scan elf table := by
  rw [mem_ofRun_discovery_iff hstage]
  refine ⟨?_, fun h => ⟨table, hread, h⟩⟩
  rintro ⟨table', hread', h⟩
  rw [Except.ok.inj (hread.symm.trans hread')]
  exact h

/-- A run gets as far as the headers of its destination: it has found addresses, and their table
fits. -/
structure Arrives (scan : Bool) (elf pe : Bytes) (d : Discovery) (h : Pe.Headers) : Prop where
  discovery : discover scan elf = .ok d
  nonempty : d.total ≠ 0
  fits : ∀ a ∈ d.addresses.toList, Table.fits a
  headers : Pe.Headers.read pe = .ok h

/-- **An event of the destination** comes from a run that has nothing to do, from one that gets as
far as the headers, or from one that has a job. -/
theorem mem_ofRun_destination_iff (hstage : event.stage = .destination) :
    event ∈ ofRun options elf pe ↔
      prepare options.scan elf pe = .ok none ∧ event = .nothingFound ∨
      (∃ d h, Arrives options.scan elf pe d h ∧ (event = .peHeaders h ∨ ∃ s index,
        h.relocationSection? = some (s, index) ∧ s.rawSize.toNat < (Table.ofSet d.addresses).size ∧
          (Table.ofSet d.addresses).size < UInt32.size ∧
          event = .sectionTooSmall s (Table.ofSet d.addresses).size)) ∨
      ∃ job, prepare options.scan elf pe = .ok (some job) ∧
        (event = planned job.patch.table.size job.patch.plan ∨
          options.dryRun = true ∧ event = .dryRun) := by
  have hbehind : event ∈ ofRun options elf pe ↔
      ∃ d, discover options.scan elf = .ok d ∧ event ∈ ofAddresses options pe d := by
    rw [mem_ofRun_iff]
    refine ⟨?_, fun h => .inr (.inr h)⟩
    rintro (h | ⟨_, _, h⟩ | h)
    · cases hstage.symm.trans (stage_of_mem_ofSource h)
    · cases hstage.symm.trans (stage_of_mem_ofDiscovery h)
    · exact h
  -- Both sides are now said by the stages behind the discovery.
  have hnone : prepare options.scan elf pe = .ok none ↔
      ∃ d, discover options.scan elf = .ok d ∧ d.total = 0 := prepareIn_eq_none_iff
  rw [hbehind, hnone]
  simp only [mem_ofAddresses_iff, mem_ofPatch_iff, mem_ofPlan_iff,
    Table.ofAddresses_toList_eq_ok_iff]
  constructor
  · rintro ⟨d, hd, ⟨hempty, he⟩ | ⟨hsome, _, ⟨hfits, rfl⟩, h, hh, hevent⟩⟩
    · exact .inl ⟨⟨d, hd, hempty⟩, he⟩
    -- The headers were read whether or not there is a plan; with one, the run has a job.
    have harrives : Arrives options.scan elf pe d h := ⟨hd, hsome, hfits, hh⟩
    have hjob : ∀ plan, Pe.Plan.make h pe.size (Table.ofSet d.addresses).size = .ok plan →
        prepare options.scan elf pe = .ok (some ⟨d, h, plan, Table.ofSet d.addresses⟩) :=
      fun plan hplan => prepare_eq_some_iff.mpr ⟨hd, hsome, hfits, rfl, hh, hplan⟩
    rcases hevent with he | (⟨s, index, hfound, hsmall, hlt, he⟩ | ⟨plan, hplan, he⟩) |
      ⟨plan, hplan, hdry, he⟩
    · exact .inr (.inl ⟨d, h, harrives, .inl he⟩)
    · exact .inr (.inl ⟨d, h, harrives, .inr ⟨s, index, hfound, hsmall, hlt, he⟩⟩)
    · exact .inr (.inr ⟨_, hjob plan hplan, .inl he⟩)
    · exact .inr (.inr ⟨_, hjob plan hplan, .inr ⟨hdry, he⟩⟩)
  · rintro (⟨⟨d, hd, hempty⟩, he⟩ | ⟨d, h, ha, he⟩ | ⟨job, hjob, he⟩)
    · exact ⟨d, hd, .inl ⟨hempty, he⟩⟩
    · refine ⟨d, ha.discovery, .inr ⟨ha.nonempty, _, ⟨ha.fits, rfl⟩, h, ha.headers, ?_⟩⟩
      rcases he with he | htooSmall
      · exact .inl he
      · exact .inr (.inl (.inl htooSmall))
    · have hp := prepare_eq_some_iff.mp hjob
      refine ⟨job.discovery, hp.discovery, .inr ⟨hp.nonempty, job.patch.table, ⟨hp.fits, hp.table⟩,
        job.patch.headers, hp.headers, ?_⟩⟩
      rcases he with he | ⟨hdry, he⟩
      · exact .inr (.inl (.inr ⟨job.patch.plan, hp.plan, he⟩))
      · exact .inr (.inr ⟨job.patch.plan, hp.plan, hdry, he⟩)

private theorem elfHeader_mem_ofRun_iff (header : Elf.Header) :
    .elfHeader header ∈ ofRun options elf pe ↔ Elf.Header.read elf = .ok header := by
  rw [mem_ofRun_source_iff rfl, mem_ofSource_iff]
  constructor
  · rintro ⟨_, hread, he | hsections⟩
    · cases he
      exact hread
    · obtain ⟨_, _, he⟩ := exists_of_mem_ofSections hsections
      cases he
  · exact fun hread => ⟨header, hread, .inl rfl⟩

private theorem elfSection_mem_ofRun_iff {header : Elf.Header} {found : List Elf.Section}
    (hread : Elf.Header.read elf = .ok header) (hfound : header.sections elf = .ok found)
    (index : Nat) (s : Elf.Section) :
    .elfSection index s ∈ ofRun options elf pe ↔ found[index]? = some s := by
  rw [mem_ofRun_source_iff rfl, mem_ofSource_iff, ← elfSection_mem_ofSections_iff hfound]
  constructor
  · rintro ⟨_, hread', he | hsections⟩
    · cases he
    · rw [Except.ok.inj (hread.symm.trans hread')]
      exact hsections
  · exact fun hsections => ⟨header, hread, .inr hsections⟩

private theorem scanning_mem_ofRun_iff {s : Elf.Section} {range : Elf.AddressRange} :
    .scanning s range ∈ ofRun options elf pe ↔
      options.scan = true ∧ ∃ table recorded, SectionTable.read elf = .ok table ∧
        Discovery.recordedAddresses table.machine elf table.sections = .ok recorded ∧
        Discovery.scanTarget table table.sections = some (s, range) := by
  rw [mem_ofRun_discovery_iff rfl]
  simp only [scanning_mem_ofDiscovery_iff]
  constructor
  · rintro ⟨table, hread, recorded, hrecorded, hscan, htarget⟩
    exact ⟨hscan, table, recorded, hread, hrecorded, htarget⟩
  · rintro ⟨hscan, table, recorded, hread, hrecorded, htarget⟩
    exact ⟨table, hread, recorded, hrecorded, hscan, htarget⟩

private theorem exists_record_mem_ofRun_iff {d : Discovery}
    (hd : discover options.scan elf = .ok d) (address : UInt64) :
    (∃ name machine, .record name machine address ∈ ofRun options elf pe) ↔
      address ∈ d.recorded := by
  obtain ⟨table, hread, hfound⟩ := discover_eq_ok_iff.mp hd
  have hrecorded := (Discovery.ofImage_eq_ok_iff.mp hfound).1
  rw [← exists_record_mem_ofRecords_iff hrecorded]
  refine exists_congr fun name => exists_congr fun machine => ?_
  rw [mem_ofRun_discovery_iff_of_read rfl hread, record_mem_ofDiscovery_iff]

private theorem exists_pointer_mem_ofRun_iff {d : Discovery}
    (hd : discover options.scan elf = .ok d) (address : UInt64) :
    (∃ value, .pointer ⟨address, value⟩ ∈ ofRun options elf pe) ↔ address ∈ d.scanned := by
  obtain ⟨table, hread, hfound⟩ := discover_eq_ok_iff.mp hd
  obtain ⟨hrecorded, hscanned⟩ := Discovery.ofImage_eq_ok_iff.mp hfound
  have hpointer : ∀ value, .pointer ⟨address, value⟩ ∈ ofRun options elf pe ↔
      .pointer ⟨address, value⟩ ∈ ofDiscovery options.scan elf table :=
    fun _ => mem_ofRun_discovery_iff_of_read rfl hread
  simp only [hpointer, pointer_mem_ofDiscovery_iff]
  cases hscan : options.scan with
  | false =>
    rw [hscan] at hscanned
    have hempty : d.scanned = ∅ := (Except.ok.inj hscanned).symm
    simp [hempty]
  | true =>
    rw [hscan] at hscanned
    obtain ⟨found, hfound, hset⟩ := map_eq_ok_iff.mp hscanned
    rw [← hset, AddressSet.mem_ofList, List.mem_map]
    constructor
    · rintro ⟨value, _, _, _, found', hfound', hp⟩
      cases Except.ok.inj (hfound'.symm.trans hfound)
      exact ⟨_, hp, rfl⟩
    · rintro ⟨p, hp, rfl⟩
      exact ⟨p.value, _, hrecorded, rfl, found, hfound, hp⟩

private theorem sectionTooSmall_mem_ofRun_iff {s : Pe.Section} {size : Nat} :
    .sectionTooSmall s size ∈ ofRun options elf pe ↔
      ∃ d h index, Arrives options.scan elf pe d h ∧ h.relocationSection? = some (s, index) ∧
        (Table.ofSet d.addresses).size = size ∧ s.rawSize.toNat < size ∧ size < UInt32.size := by
  rw [mem_ofRun_destination_iff rfl]
  simp only [eq_planned_iff]
  constructor
  · rintro (⟨_, he⟩ | ⟨d, h, ha, he | ⟨_, index, hfound, hsmall, hlt, he⟩⟩ |
      ⟨_, _, (⟨_, _, _, he⟩ | ⟨_, _, he⟩) | ⟨_, he⟩⟩) <;> cases he
    exact ⟨d, h, index, ha, hfound, rfl, hsmall, hlt⟩
  · rintro ⟨d, h, index, ha, hfound, rfl, hsmall, hlt⟩
    exact .inr (.inl ⟨d, h, ha, .inr ⟨s, index, hfound, hsmall, hlt, rfl⟩⟩)

/-- What a list of events tells of a run. -/
structure Tells (options : Options) (elf pe : Bytes) (events : List Event) : Prop where
  header (h : Elf.Header) : .elfHeader h ∈ events ↔ Elf.Header.read elf = .ok h
  /-- Of sections that can all be read, all are told, index by index. -/
  listed (h : Elf.Header) (found : List Elf.Section) (hread : Elf.Header.read elf = .ok h)
    (hfound : h.sections elf = .ok found) (index : Nat) (s : Elf.Section) :
    .elfSection index s ∈ events ↔ found[index]? = some s
  discovered (d : Discovery) : .discovered d ∈ events ↔ discover options.scan elf = .ok d
  /-- Of a discovery that succeeds, all records are told that gave an address. -/
  recorded (d : Discovery) (hd : discover options.scan elf = .ok d) (address : UInt64) :
    (∃ name machine, .record name machine address ∈ events) ↔ address ∈ d.recorded
  /-- A search is told once no record is wrong. -/
  scanning (s : Elf.Section) (range : Elf.AddressRange) : .scanning s range ∈ events ↔
    options.scan = true ∧ ∃ table recorded, SectionTable.read elf = .ok table ∧
      Discovery.recordedAddresses table.machine elf table.sections = .ok recorded ∧
      Discovery.scanTarget table table.sections = some (s, range)
  /-- Of a discovery that succeeds, all pointers are told that were found. -/
  scanned (d : Discovery) (hd : discover options.scan elf = .ok d) (address : UInt64) :
    (∃ value, .pointer ⟨address, value⟩ ∈ events) ↔ address ∈ d.scanned
  nothingFound : .nothingFound ∈ events ↔ (run options elf pe).1 = .ok .noRelocations
  headers (h : Pe.Headers) : .peHeaders h ∈ events ↔ ∃ d, Arrives options.scan elf pe d h
  sectionTooSmall (s : Pe.Section) (size : Nat) : .sectionTooSmall s size ∈ events ↔
    ∃ d h index, Arrives options.scan elf pe d h ∧ h.relocationSection? = some (s, index) ∧
      (Table.ofSet d.addresses).size = size ∧ s.rawSize.toNat < size ∧ size < UInt32.size
  replacing (s : Pe.Section) (size : Nat) : .replacing s size ∈ events ↔
    ∃ job index, prepare options.scan elf pe = .ok (some job) ∧
      job.patch.plan = .replace index s ∧ job.patch.table.size = size
  appending (place : Pe.NewSection) : .appending place ∈ events ↔
    ∃ job, prepare options.scan elf pe = .ok (some job) ∧ job.patch.plan = .append place
  dryRun : .dryRun ∈ events ↔
    options.dryRun = true ∧ ∃ r, (run options elf pe).1 = .ok (.patched r)

/-- **The journal agrees with the run.** -/
theorem ofRun_tells (options : Options) (elf pe : Bytes) :
    Tells options elf pe (ofRun options elf pe) where
  header := elfHeader_mem_ofRun_iff
  listed _ _ := elfSection_mem_ofRun_iff
  discovered d := by
    rw [mem_ofRun_discovery_iff rfl, discover_eq_ok_iff]
    simp only [discovered_mem_ofDiscovery_iff]
  recorded _ := exists_record_mem_ofRun_iff
  scanning _ _ := scanning_mem_ofRun_iff
  scanned _ := exists_pointer_mem_ofRun_iff
  nothingFound := by
    rw [mem_ofRun_destination_iff rfl, run, runIn_eq_noRelocations_iff]
    simp [eq_planned_iff, prepare]
  headers h := by
    rw [mem_ofRun_destination_iff rfl]
    simp [eq_planned_iff]
  sectionTooSmall _ _ := sectionTooSmall_mem_ofRun_iff
  replacing s size := by
    rw [mem_ofRun_destination_iff rfl]
    simp [eq_planned_iff, eq_comm (a := size)]
  appending place := by
    rw [mem_ofRun_destination_iff rfl]
    simp [eq_planned_iff]
  dryRun := by
    rw [mem_ofRun_destination_iff rfl, run, exists_runIn_eq_patched_iff]
    simp [eq_planned_iff, and_comm, prepare]

/-! ## §4 Dry runs -/

private theorem ofPatch_dryRun (pe : Bytes) (t : Table) :
    ofPatch true pe t =
      ofPatch false pe t ++ behind (Pe.Patch.make pe t) fun _ => [.dryRun] := by
  -- A patch is made in the two steps that the journal goes through.
  have hmake : behind (Pe.Patch.make pe t) (fun _ => [Event.dryRun]) =
      behind (Pe.Headers.read pe) fun headers =>
        behind (Pe.Plan.make headers pe.size t.size) fun _ => [.dryRun] := by
    rw [Pe.Patch.make, behind_bind, behind_mapError]
    simp only [behind_bind]
    rfl
  rw [hmake, ofPatch, ofPatch, ← behind_append]
  congr 1
  funext headers
  rw [List.append_assoc, ← behind_append]
  rfl

private theorem ofAddresses_dryRun (options : Options) (pe : Bytes) (d : Discovery) :
    ofAddresses { options with dryRun := true } pe d =
      ofAddresses { options with dryRun := false } pe d ++
        behind (jobFor d pe) fun job => job.elim [] fun _ => [.dryRun] := by
  unfold ofAddresses jobFor
  split
  · rfl
  · simp only [behind_bind, behind_mapError]
    rw [← behind_append]
    congr 1
    funext t
    exact ofPatch_dryRun pe t

/-- **A dry run** tells what the run itself does. Where it has a job it adds that it stopped
there. -/
theorem ofRun_dryRun (options : Options) (elf pe : Bytes) :
    ofRun { options with dryRun := true } elf pe =
      ofRun { options with dryRun := false } elf pe ++
        behind (prepare options.scan elf pe) fun job => job.elim [] fun _ => [.dryRun] := by
  -- The event of a dry run is the last, so it can be moved out of every stage.
  unfold ofRun prepare prepareIn discoverIn
  simp only [behind_bind, behind_mapError, List.append_assoc, ← behind_append]
  congr 2
  funext table
  rw [← Discovery.ofImage, ← behind_append]
  congr 2
  funext d
  exact ofAddresses_dryRun options pe d

end Journal

end Rebase
