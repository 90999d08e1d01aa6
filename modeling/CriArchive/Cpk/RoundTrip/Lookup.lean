import CriArchive.Cpk.RoundTrip.Index
import CriArchive.Cpk.Writer.Pack

set_option relaxedAutoImplicit false
set_option autoImplicit false

/-!
# Looking up written entries by their ID

The engine finds a payload by its ID alone, by two binary searches and two sums. In an archive with
an ID table, that is where the writer put the payload.

## Main definitions

* `ItocRow.fits16` — the sizes of a row fit 16 bits.

## Main results

* `Written.engineOffset_eq` — the lookup finds the planned offsets.
* `itoc_lookup` — the two tables of a written ID table, and the engine's lookup in them.
-/

namespace CriArchive

open ByteStream CpkReader Search

/-- The sizes of a row fit 16 bits. -/
def ItocRow.fits16 (row : ItocRow) : Prop :=
  row.fileSize.toNat < 2 ^ 16 ∧ row.extractSize.toNat < 2 ^ 16

/-- The rows of the narrow table are those whose sizes fit 16 bits. -/
theorem fits16_of_mem {physical : List CpkInputFile} {row : ItocRow} :
    (row ∈ lowRows physical false → row.fits16) ∧ (row ∈ highRows physical false → ¬row.fits16) := by
  constructor
  · intro hrow
    rw [lowRows, if_neg Bool.false_ne_true] at hrow
    obtain ⟨f, hf, rfl⟩ := List.mem_map.mp hrow
    exact fitsLow_iff.mp (List.of_mem_filter hf)
  · intro hrow
    rw [highRows, if_neg Bool.false_ne_true] at hrow
    obtain ⟨f, hf, rfl⟩ := List.mem_map.mp hrow
    have hnot : (!f.fitsLow) = true := (List.mem_filter.mp hf).2
    intro hfits
    rw [fitsLow_iff.mpr hfits] at hnot
    exact absurd hnot (by decide)

/-- Each table keeps the order of the entries. -/
theorem rows_pairwise {physical : List CpkInputFile}
    (hids : (physical.map CpkInputFile.id).Pairwise (· < ·)) (direct : Bool) :
    ((lowRows physical direct).Pairwise fun a b => a.id < b.id) ∧
      (highRows physical direct).Pairwise fun a b => a.id < b.id := by
  rw [List.pairwise_map] at hids
  have hfilter : ∀ p : CpkInputFile → Bool,
      ((physical.filter p).map itocRowRead).Pairwise fun a b => a.id < b.id := fun p => by
    rw [List.pairwise_map]
    exact hids.filter p
  unfold lowRows highRows
  split_ifs
  · exact ⟨.nil, List.pairwise_map.mpr hids⟩
  · exact ⟨hfilter _, hfilter _⟩

section Lookup

variable {fs : FileSystem} {path : P5RPath} {files : List CpkInputFile}
  {options : CpkWriterOptions} {profile : CpkWriterProfile} {report : CpkWriteReport}
  {bytes : List UInt8}

/-- **The lookup finds the planned offsets.** The rows before an ID in both tables are those of the
entries before it in physical order, and the plan places payloads in that order.

**Proof sketch.** The lookup sums the aligned sizes of the rows with smaller IDs in both tables.
Together these are the rows of all entries, and in physical order those with smaller IDs are the
ones before; the plan puts a payload behind the aligned sizes of the payloads before it. -/
theorem Written.engineOffset_eq (w : Written fs path files options profile report bytes)
    (hitoc : profile.indexMode.hasItoc = true) {i : ℕ} {f : CpkInputFile} (hf : files[i]? = some f) :
    ∃ o, w.plan.absoluteOffsets[i]? = some o ∧
      engineOffset w.plan.contentOffset.toNat options.alignment.toNat
        (lowRows w.physical profile.directItoc) (highRows w.physical profile.directItoc) f.id =
          some o.toNat := by
  have hpos := alignment_pos w.planned
  obtain ⟨-, hids⟩ := w.ids_physical hitoc
  obtain ⟨hlow, hhigh⟩ := rows_pairwise hids profile.directItoc
  have hperm := w.layout.entries.2
  have hi : i ∈ w.plan.physicalOrder :=
    hperm.mem_iff.mpr (List.mem_range.mpr (List.getElem?_eq_some_iff.mp hf).1)
  obtain ⟨k, hk⟩ := List.mem_iff_getElem?.mp hi
  obtain ⟨f', o, payload, hf', ho, -, -, hplace⟩ := entry_at w.planned w.emits hk
  obtain rfl := Option.some.inj (hf.symm.trans hf')
  refine ⟨o, ho, ?_⟩
  -- the row of the entry stands at the position of the entry
  have hrow : (w.physical.map itocRowRead)[k]? = some (itocRowRead f) := by
    rw [List.getElem?_map, physical, getElem?_inOrder (fun j hj =>
      List.mem_range.mp (hperm.mem_iff.mp hj)) hk, hf]
    rfl
  have hmem : itocRowRead f ∈ lowRows w.physical profile.directItoc ++
      highRows w.physical profile.directItoc :=
    (rows_perm _ _).mem_iff.mpr (List.mem_of_getElem? hrow)
  have hsorted : (w.physical.map itocRowRead).Pairwise fun a b => a.id < b.id := by
    rw [List.pairwise_map] at hids ⊢
    exact hids
  have hid : ∃ row ∈ lowRows w.physical profile.directItoc ++
      highRows w.physical profile.directItoc, row.id = f.id := ⟨_, hmem, rfl⟩
  rw [CriArchive.engineOffset_eq hlow hhigh hid, sumBelow_perm _ _ (rows_perm _ _)]
  have hsum : sumBelow ItocRow.number (paddedSize options.alignment.toNat)
      (w.physical.map itocRowRead) f.id.toNat =
        (((w.physical.map itocRowRead).take k).map (paddedSize options.alignment.toNat)).sum :=
    sumBelow_eq_take (pairwise_number hsorted) hrow
  rw [place_eq_sum hpos w.layout.aligned.1 hplace, hsum, sizes_of_emits w.emits, ← List.map_take,
    ← List.map_take, List.map_map, List.map_map]
  rfl

/-- **Written ID tables serve the engine's lookup.** The tables are there, each with strictly
ascending IDs, and together they hold a row for every entry; without the direct form a row stands in
the narrow table iff its sizes fit 16 bits. The lookup of an ID gives the offset at which the writer
put the payload. There is a physical order iff all IDs fit 16 bits and none repeats.

**Proof sketch.** The order fails iff one of its two checks does. In a written archive the rows of
both tables are known (`exists_itocTable`), each table being a part of the physical order, and
`Written.engineOffset_eq` gives the lookup. -/
theorem itoc_lookup (shiftJis : List UInt8 → String) (fs : FileSystem) (path : P5RPath)
    (files : List CpkInputFile) (options : CpkWriterOptions) (profile : CpkWriterProfile)
    (hitoc : profile.indexMode.hasItoc = true) :
    ((∃ e, buildPhysicalOrder files profile = .err e) ↔
      (∃ f ∈ files, 65535 < f.id.toNat) ∨ ¬(files.map CpkInputFile.id).Nodup) ∧
    ∀ report out, writeWithProfile fs path files options profile ⟨[], 0⟩ = (.ok report, out) →
      ∀ slab heap : ℕ → UInt8, ∃ m r low high plan,
        readMetadata shiftJis (CpkReader.new out.bytes 0 slab heap) = (.ok m, r) ∧
        ReadsRows shiftJis m r low high ∧ planArchive files options profile = .ok plan ∧
        (m.eid ≠ 0 ↔ profile.directItoc = true) ∧
        (low.Pairwise fun a b => a.id < b.id) ∧ (high.Pairwise fun a b => a.id < b.id) ∧
        (low ++ high).Perm (files.map itocRowRead) ∧ ((low ++ high).map ItocRow.id).Nodup ∧
        (profile.directItoc = true → low = []) ∧
        (profile.directItoc = false →
          (∀ row ∈ low, row.fits16) ∧ ∀ row ∈ high, ¬row.fits16) ∧
        ∀ (i : ℕ) (f : CpkInputFile), files[i]? = some f → ∃ o payload,
          plan.absoluteOffsets[i]? = some o ∧
          engineOffset m.contentOffset.toNat (max m.align.toNat 1) low high f.id = some o.toNat ∧
          emittedPayload fs path options.p5rEncryption f = .ok payload ∧
          window out.bytes o.toNat f.size.toNat = payload := by
  constructor
  · have hiff := @buildPhysicalOrder_eq_ok files profile
    have hends := @buildPhysicalOrder_ends files profile
    rcases horder : buildPhysicalOrder files profile with order | e | _
    · obtain ⟨hsmall, hnodup⟩ := hiff.mp ⟨order, horder⟩ hitoc
      constructor
      · rintro ⟨e, he⟩
        cases he
      rintro (⟨f, hf, hlarge⟩ | hdup)
      · have := hsmall f hf
        omega
      · exact absurd hnodup hdup
    · refine ⟨fun _ => ?_, fun _ => ⟨e, rfl⟩⟩
      by_contra hnot
      push Not at hnot
      obtain ⟨order, hok⟩ := hiff.mpr fun _ => ⟨fun f hf => by have := hnot.1 f hf; omega, hnot.2⟩
      rw [horder] at hok
      cases hok
    · rw [horder] at hends
      exact hends.elim
  · intro report out hwrite slab heap
    obtain ⟨w⟩ := written_of_ok hwrite
    obtain ⟨r, hmetadata, hopen, -, -⟩ := w.opened_readMetadata shiftJis
      (r := CpkReader.new out.bytes 0 slab heap) rfl rfl
    obtain ⟨t, pos, hposition, htable, hindex⟩ :=
      w.exists_itocTable shiftJis hitoc hopen.1 hopen.2.1
    obtain ⟨-, hids⟩ := w.ids_physical hitoc
    obtain ⟨hlow, hhigh⟩ := rows_pairwise hids profile.directItoc
    have hphysical : w.physical.Perm files := inOrder_perm w.layout.entries.2
    have hperm := (rows_perm w.physical profile.directItoc).trans (hphysical.map itocRowRead)
    refine ⟨w.metadata, r, _, _, w.plan, hmetadata, ⟨_, t, _, hposition, htable, hindex⟩,
      w.plan_eq, ?_, hlow, hhigh, hperm, ?_, ?_, ?_, fun i f hf => ?_⟩
    · have heid : w.metadata.eid = if profile.directItoc = true then 1 else 0 := by
        rw [Written.metadata, writtenMetadata, hitoc, Bool.true_and]
      rw [heid]
      split_ifs with hdirect
      · exact ⟨fun _ => hdirect, fun _ => by decide⟩
      · exact ⟨fun h => absurd rfl h, fun h => absurd h hdirect⟩
    · rw [((rows_perm w.physical profile.directItoc).map ItocRow.id).nodup_iff, List.map_map]
      exact hids.imp fun hlt => UInt32.ne_of_lt hlt
    · intro hdirect
      rw [lowRows, if_pos hdirect]
    · intro hdirect
      rw [hdirect]
      exact ⟨fun _ => fits16_of_mem.1, fun _ => fits16_of_mem.2⟩
    · obtain ⟨o, ho, hengine⟩ := w.engineOffset_eq hitoc hf
      obtain ⟨payload, hemits, hwindow⟩ := window_payload w.planned w.emits hf ho
      rw [← w.bytes_eq] at hwindow
      have halign : max w.metadata.align.toNat 1 = options.alignment.toNat :=
        max_eq_left (alignment_pos w.planned)
      exact ⟨o, payload, ho, by rw [halign]; exact hengine, hemits.1, hwindow⟩

/-- Two entries, of which one has a size that only the wide table holds. -/
def sampleMixed : List CpkInputFile :=
  [⟨"d", "b", [0x62], 272, 70000, 7, "u", none⟩, ⟨"d", "a", [0x61], 3, 3, 3, "", none⟩]

/-- In an archive without a table of contents the lookup finds both entries, one in each table. -/
theorem itoc_lookup_sample : ∃ report out m r low high plan o o',
    writeWithProfile sampleFileSystem .u64 sampleMixed ⟨16, false⟩ (sampleProfile .itoc) ⟨[], 0⟩ =
      (.ok report, out) ∧
    readMetadata (fun _ => "") (CpkReader.new out.bytes 0 (fun _ => 0) fun _ => 0) = (.ok m, r) ∧
    ReadsRows (fun _ => "") m r low high ∧ ⟨3, 3, 3, none⟩ ∈ low ∧ ⟨7, 272, 70000, none⟩ ∈ high ∧
    planArchive sampleMixed ⟨16, false⟩ (sampleProfile .itoc) = .ok plan ∧
    plan.absoluteOffsets[0]? = some o ∧ plan.absoluteOffsets[1]? = some o' ∧
    engineOffset m.contentOffset.toNat (max m.align.toNat 1) low high 7 = some o.toNat ∧
    engineOffset m.contentOffset.toNat (max m.align.toNat 1) low high 3 = some o'.toNat := by
  have hplan : ∃ plan, planArchive sampleMixed ⟨16, false⟩ (sampleProfile .itoc) = .ok plan ∧
      plan.fileCount = 2 := by
    decide +kernel
  have hreadable : ∀ f ∈ sampleMixed, Readable sampleFileSystem f :=
    List.forall_mem_cons.mpr ⟨⟨sampleCompressed, rfl, by decide +kernel⟩,
      List.forall_mem_singleton.mpr ⟨[1, 2, 3], rfl, rfl⟩⟩
  obtain ⟨report, out, hwrite⟩ : ∃ report out, writeWithProfile sampleFileSystem .u64 sampleMixed
      ⟨16, false⟩ (sampleProfile .itoc) ⟨[], 0⟩ = (.ok report, out) :=
    exists_writeWithProfile_of_readable (hplan.imp fun _ h => h.1) hreadable
  obtain ⟨m, r, low, high, plan, hmetadata, hrows, hplan, -, -, -, hperm, -, -, hfits, hall⟩ :=
    (itoc_lookup (fun _ => "") sampleFileSystem .u64 sampleMixed ⟨16, false⟩ (sampleProfile .itoc)
      rfl).2 _ out hwrite (fun _ => 0) fun _ => 0
  obtain ⟨hlow, hhigh⟩ := hfits rfl
  have hmem : ∀ row ∈ sampleMixed.map itocRowRead, row ∈ low ∨ row ∈ high := fun row hrow =>
    List.mem_append.mp (hperm.mem_iff.mpr hrow)
  have hnarrow : ItocRow.fits16 ⟨3, 3, 3, none⟩ := ⟨by decide, by decide⟩
  have hwide : ¬ItocRow.fits16 ⟨7, 272, 70000, none⟩ := fun h => absurd h.2 (by decide)
  obtain ⟨o, -, ho, hengine, -, -⟩ := hall 0 _ rfl
  obtain ⟨o', -, ho', hengine', -, -⟩ := hall 1 _ rfl
  refine ⟨report, out, m, r, low, high, plan, o, o', hwrite, hmetadata, hrows, ?_, ?_, hplan, ho, ho',
    hengine, hengine'⟩
  · exact (hmem _ (List.mem_cons_of_mem _ (List.mem_singleton_self _))).resolve_right fun h =>
      hhigh _ h hnarrow
  · exact (hmem _ List.mem_cons_self).resolve_left fun h => hwide (hlow _ h)

end Lookup

end CriArchive
