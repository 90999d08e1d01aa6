import CriArchive.Cpk.Writer.Emit

set_option relaxedAutoImplicit false
set_option autoImplicit false

/-!
# The layout of a written archive

What the bytes of an archive look like, by the plan they were put out from: which region lies
where, that regions do not overlap, and that everything else is zero.

## Main definitions

* `CpkPlan.Layout` — the layout of an archive.

## Main results

* `entry_region` — the payload of an entry is a region at the offset of the entry.
* `writeWithProfile_layout` — every archive that the writer returns has the layout of its plan,
  and none of the writer's internal checks fails.
-/

namespace CriArchive

open ByteStream Regions

/-- The layout of the archive of a plan, at an alignment `a`. -/
structure CpkPlan.Layout (files : List CpkInputFile) (mode : CpkIndexMode) (a : ℕ) (p : CpkPlan)
    (bytes : List UInt8) : Prop where
  length : bytes.length = p.archiveSize.toNat
  aligned : a ∣ p.contentOffset.toNat ∧ a ∣ p.archiveSize.toNat
  header : (buildChunk .cpk p.headerTable).length ≤ 0x7fa ∧
    window bytes 0 (buildChunk .cpk p.headerTable).length = buildChunk .cpk p.headerTable
  marker : window bytes 0x7fa 6 = copyrightMarker ∧ 0x800 ≤ p.contentOffset.toNat
  indices : p.tocTable.isSome = mode.hasToc ∧ p.itocTable.isSome = mode.hasItoc
  toc : ∀ table, p.tocTable = some table → p.tocOffset = 0x800 ∧
    0x800 + (buildChunk .toc table).length ≤ p.contentOffset.toNat ∧
    window bytes 0x800 (buildChunk .toc table).length = buildChunk .toc table
  itoc : ∀ table, p.itocTable = some table → 0x800 ≤ p.itocOffset.toNat ∧
    (∀ tocTable, p.tocTable = some tocTable →
      0x800 + (buildChunk .toc tocTable).length ≤ p.itocOffset.toNat) ∧
    p.itocOffset.toNat + (buildChunk .itoc table).length ≤ p.contentOffset.toNat ∧
    window bytes p.itocOffset.toNat (buildChunk .itoc table).length = buildChunk .itoc table
  entries : p.absoluteOffsets.length = files.length ∧
    p.physicalOrder.Perm (List.range files.length)
  /-- Every payload is aligned and lies inside the contents. -/
  payload : ∀ (i : ℕ) (f : CpkInputFile) (o : UInt64), files[i]? = some f →
    p.absoluteOffsets[i]? = some o →
    a ∣ o.toNat ∧ p.contentOffset.toNat ≤ o.toNat ∧ o.toNat + f.size.toNat ≤ p.archiveSize.toNat
  /-- A payload ends before every payload that is later in physical order. -/
  disjoint : p.physicalOrder.Pairwise fun i j => ∀ (f : CpkInputFile) (o o' : UInt64),
    files[i]? = some f → p.absoluteOffsets[i]? = some o → p.absoluteOffsets[j]? = some o' →
    o.toNat + f.size.toNat ≤ o'.toNat
  /-- Everything else is zero. -/
  zero : ∀ x < bytes.length, (buildChunk .cpk p.headerTable).length ≤ x →
    ¬(0x7fa ≤ x ∧ x < 0x800) →
    (∀ table, p.tocTable = some table →
      ¬(0x800 ≤ x ∧ x < 0x800 + (buildChunk .toc table).length)) →
    (∀ table, p.itocTable = some table →
      ¬(p.itocOffset.toNat ≤ x ∧ x < p.itocOffset.toNat + (buildChunk .itoc table).length)) →
    (∀ (i : ℕ) (f : CpkInputFile) (o : UInt64), files[i]? = some f → p.absoluteOffsets[i]? = some o →
      ¬(o.toNat ≤ x ∧ x < o.toNat + f.size.toNat)) → bytes[x]? = some 0

section Layout

variable {fs : FileSystem} {path : P5RPath} {files : List CpkInputFile}
  {options : CpkWriterOptions} {profile : CpkWriterProfile} {p : CpkPlan}
  {payloads : List (List UInt8)}

section Members

variable (p) (a : ℕ) (payloads)

/-- The header chunk is a region. -/
theorem header_mem_regions : (0, buildChunk .cpk p.headerTable) ∈ p.regions a payloads :=
  List.mem_append_left _ (List.mem_append_left _ (List.mem_cons_self ..))

/-- The copyright marker is a region. -/
theorem marker_mem_regions : (copyrightMarkerOffset, copyrightMarker) ∈ p.regions a payloads :=
  List.mem_append_left _ (List.mem_append_left _ (List.mem_cons_of_mem _ (List.mem_cons_self ..)))

variable {p} {table : List UInt8}

/-- The chunk of the TOC is a region. -/
theorem toc_mem_regions (h : p.tocTable = some table) :
    (p.tocOffset.toNat, buildChunk .toc table) ∈ p.regions a payloads := by
  refine List.mem_append_left _ (List.mem_append_right _ (List.mem_append_left _ ?_))
  rw [h]
  exact List.mem_cons_self ..

/-- The chunk of the ID table is a region. -/
theorem itoc_mem_regions (h : p.itocTable = some table) :
    (p.itocOffset.toNat, buildChunk .itoc table) ∈ p.regions a payloads := by
  refine List.mem_append_left _ (List.mem_append_right _ (List.mem_append_right _ ?_))
  rw [h]
  exact List.mem_cons_self ..

end Members

section Entries

variable (hp : p.Planned files options profile)
  (hpayloads : List.Forall₂ (Emits fs path options.p5rEncryption)
    (inOrder files p.physicalOrder) payloads)

include hpayloads hp

/-- The entry at the position `k` of the physical order, with its offset and its payload. -/
theorem entry_at {k i : ℕ} (hk : p.physicalOrder[k]? = some i) :
    ∃ f o payload, files[i]? = some f ∧ p.absoluteOffsets[i]? = some o ∧
      Emits fs path options.p5rEncryption f payload ∧ payloads[k]? = some payload ∧
      (place options.alignment.toNat p.contentOffset.toNat (payloads.map List.length))[k]? =
        some o.toNat := by
  obtain ⟨hperm, -, -⟩ := buildPhysicalOrder_spec hp.order
  have hall : ∀ j ∈ p.physicalOrder, j < files.length := fun j hj =>
    List.mem_range.mp (hperm.mem_iff.mp hj)
  have hi := hall i (List.mem_of_getElem? hk)
  have hi' : i < p.absoluteOffsets.length := by
    rw [hp.lengthOffsets]
    exact hi
  have hfile := getElem?_inOrder hall hk
  have hall' : ∀ j ∈ p.physicalOrder, j < p.absoluteOffsets.length := fun j hj => by
    rw [hp.lengthOffsets]
    exact hall j hj
  have hoffset := getElem?_inOrder hall' hk
  rw [List.getElem?_eq_getElem hi] at hfile
  rw [List.getElem?_eq_getElem hi'] at hoffset
  obtain ⟨hk₁, hfile'⟩ := List.getElem?_eq_some_iff.mp hfile
  have hk₂ : k < payloads.length := hpayloads.length_eq ▸ hk₁
  have hemits := List.forall₂_iff_get.mp hpayloads |>.2 k hk₁ hk₂
  simp only [List.get_eq_getElem, hfile'] at hemits
  refine ⟨files[i], p.absoluteOffsets[i], payloads[k], List.getElem?_eq_getElem hi,
    List.getElem?_eq_getElem hi', hemits, List.getElem?_eq_getElem hk₂, ?_⟩
  rw [sizes_of_emits hpayloads, ← hp.placed, List.getElem?_map, hoffset, Option.map_some]

/-- **The payload of an entry** is a region at the offset of the entry. -/
theorem entry_region {i : ℕ} {f : CpkInputFile} {o : UInt64} (hf : files[i]? = some f)
    (ho : p.absoluteOffsets[i]? = some o) :
    ∃ payload, Emits fs path options.p5rEncryption f payload ∧
      (o.toNat, payload) ∈ (place options.alignment.toNat p.contentOffset.toNat
        (payloads.map List.length)).zip payloads := by
  obtain ⟨hperm, -, -⟩ := buildPhysicalOrder_spec hp.order
  have hi : i ∈ p.physicalOrder :=
    hperm.mem_iff.mpr (List.mem_range.mpr (List.getElem?_eq_some_iff.mp hf).1)
  obtain ⟨k, hk, hki⟩ := List.mem_iff_getElem.mp hi
  obtain ⟨f', o', payload, hf', ho', hemits, hpayload, hplace⟩ :=
    entry_at hp hpayloads (List.getElem?_eq_some_iff.mpr ⟨hk, hki⟩)
  obtain rfl := Option.some.inj (hf.symm.trans hf')
  obtain rfl := Option.some.inj (ho.symm.trans ho')
  refine ⟨payload, hemits, List.mem_of_getElem? (i := k) ?_⟩
  rw [List.getElem?_zip_eq_some]
  exact ⟨hplace, hpayload⟩

/-- Every payload region belongs to an entry. -/
theorem region_entry {r : ℕ × List UInt8}
    (hr : r ∈ (place options.alignment.toNat p.contentOffset.toNat
      (payloads.map List.length)).zip payloads) :
    ∃ (i : ℕ) (f : CpkInputFile) (o : UInt64), files[i]? = some f ∧
      p.absoluteOffsets[i]? = some o ∧ r.1 = o.toNat ∧ r.2.length = f.size.toNat := by
  obtain ⟨hperm, -, -⟩ := buildPhysicalOrder_spec hp.order
  have hall : ∀ j ∈ p.physicalOrder, j < files.length := fun j hj =>
    List.mem_range.mp (hperm.mem_iff.mp hj)
  obtain ⟨k, hk⟩ := List.getElem?_of_mem hr
  rw [List.getElem?_zip_eq_some] at hk
  have hlt : k < p.physicalOrder.length := by
    rw [← length_inOrder hall, hpayloads.length_eq]
    exact (List.getElem?_eq_some_iff.mp hk.2).1
  obtain ⟨f, o, payload, hf, ho, hemits, hpayload, hplace⟩ :=
    entry_at hp hpayloads (List.getElem?_eq_getElem hlt)
  refine ⟨_, f, o, hf, ho, Option.some.inj (hk.1.symm.trans hplace), ?_⟩
  rw [Option.some.inj (hk.2.symm.trans hpayload)]
  exact hemits.2

/-- The regions of the assembled archive. -/
theorem window_region {r : ℕ × List UInt8}
    (hr : r ∈ p.regions options.alignment.toNat payloads) :
    window (assemble 0 [] (p.regions options.alignment.toNat payloads)) r.1 r.2.length = r.2 := by
  have hin : InOrder ([] : List UInt8).length (p.regions options.alignment.toNat payloads) :=
    (inOrder_regions hp (sizes_of_emits hpayloads)).1
  exact window_assemble hin hr

/-- The payload of an entry lies at its offset. -/
theorem window_payload {i : ℕ} {f : CpkInputFile} {o : UInt64} (hf : files[i]? = some f)
    (ho : p.absoluteOffsets[i]? = some o) :
    ∃ payload, Emits fs path options.p5rEncryption f payload ∧
      window (assemble 0 [] (p.regions options.alignment.toNat payloads)) o.toNat f.size.toNat =
        payload := by
  obtain ⟨payload, hemits, hmem⟩ := entry_region hp hpayloads hf ho
  refine ⟨payload, hemits, ?_⟩
  have hregion : (o.toNat, payload) ∈ p.regions options.alignment.toNat payloads :=
    List.mem_append_right _ (List.mem_cons_of_mem _ (List.mem_append_left _ hmem))
  rw [← hemits.2]
  exact window_region hp hpayloads hregion

/-- **The layout** of the archive that is assembled from the regions of a plan.

**Proof sketch.** The regions of the plan are in order (`inOrder_regions`), so that the assembled
bytes hold each region where it starts, zeros between them, and nothing behind the last. The rest is
where the plan puts the regions: the header before the marker, the index tables one after the other
from `0x800` on, and the payloads of the entries at their offsets, which are aligned, ascending in
physical order and inside the archive. -/
theorem layout_assemble : p.Layout files profile.indexMode options.alignment.toNat
    (assemble 0 [] (p.regions options.alignment.toNat payloads)) := by
  have ha := alignment_pos hp
  obtain ⟨hperm, -, -⟩ := buildPhysicalOrder_spec hp.order
  have hsizes := sizes_of_emits hpayloads
  obtain ⟨hin, hend⟩ := inOrder_regions hp hsizes
  have hin' : InOrder ([] : List UInt8).length (p.regions options.alignment.toNat payloads) := hin
  have hlen : (assemble 0 [] (p.regions options.alignment.toNat payloads)).length =
      p.archiveSize.toNat := (length_assemble hin').trans hend
  obtain ⟨h₁, h₂, h₃⟩ := indexEnd_le hp
  have hcontent : options.alignment.toNat ∣ p.contentOffset.toNat := by
    rw [hp.contentOffset]
    exact dvd_alignTo _ _
  have hbounds : ∀ (i : ℕ) (f : CpkInputFile) (o : UInt64), files[i]? = some f →
      p.absoluteOffsets[i]? = some o →
      options.alignment.toNat ∣ o.toNat ∧ p.contentOffset.toNat ≤ o.toNat ∧
        o.toNat + f.size.toNat ≤ p.archiveSize.toNat := by
    intro i f o hf ho
    obtain ⟨payload, hemits, hmem⟩ := entry_region hp hpayloads hf ho
    obtain ⟨hzip, hzipEnd⟩ := inOrder_zip_place ha p.contentOffset.toNat payloads
    obtain ⟨hle, hle'⟩ := bounds_of_inOrder hzip hmem
    rw [hsizes, ← hp.archiveSize, ← hsizes] at hzipEnd
    refine ⟨place_dvd hcontent _ _ (List.of_mem_zip hmem).1, hle, ?_⟩
    rw [← hemits.2]
    exact Nat.le_trans hle' hzipEnd
  refine
    { length := hlen
      aligned := ⟨hcontent, ?_⟩
      header := ⟨?_, window_region hp hpayloads (header_mem_regions p _ _)⟩
      marker := ⟨window_region hp hpayloads (marker_mem_regions p _ _), by omega⟩
      indices := ⟨?_, ?_⟩
      toc := fun table htable => ?_
      itoc := fun table htable => ?_
      entries := ⟨hp.lengthOffsets, hperm⟩
      payload := hbounds
      disjoint := ?_
      zero := fun x hx hheader hmarker htoc hitoc hentries => ?_ }
  · rw [hp.archiveSize]
    exact dvd_placeEnd hcontent _
  · have hfits := hp.headerFits
    rw [copyrightMarkerOffset] at hfits
    rw [length_buildChunk (by simp)]
    omega
  · cases htoc : profile.indexMode.hasToc with
    | true =>
      obtain ⟨-, -, table, htable, -⟩ := hp.toc htoc
      rw [htable, Option.isSome_some]
    | false => rw [(hp.noToc htoc).2, Option.isSome_none]
  · cases hitoc : profile.indexMode.hasItoc with
    | true =>
      obtain ⟨-, -, table, htable, -⟩ := hp.itoc hitoc
      rw [htable, Option.isSome_some]
    | false => rw [(hp.noItoc hitoc).2, Option.isSome_none]
  · obtain ⟨hoffset, htocEnd⟩ := tocRegion_bounds hp htable
    refine ⟨UInt64.toNat_inj.mp hoffset, by omega, ?_⟩
    rw [← hoffset]
    exact window_region hp hpayloads (toc_mem_regions _ _ htable)
  · obtain ⟨hoffset, hitocEnd⟩ := itocRegion_bounds hp htable
    refine ⟨by omega, fun tocTable htocTable => ?_, by omega, ?_⟩
    · obtain ⟨-, htocEnd⟩ := tocRegion_bounds hp htocTable
      omega
    · exact window_region hp hpayloads (itoc_mem_regions _ _ htable)
  · refine List.pairwise_iff_getElem.mpr fun k l hk hl hkl f o o' hf ho ho' => ?_
    obtain ⟨f₁, o₁, payload₁, hf₁, ho₁, hemits₁, hpayload₁, hplace₁⟩ :=
      entry_at hp hpayloads (List.getElem?_eq_getElem hk)
    obtain ⟨f₂, o₂, payload₂, hf₂, ho₂, -, hpayload₂, hplace₂⟩ :=
      entry_at hp hpayloads (List.getElem?_eq_getElem hl)
    obtain rfl := Option.some.inj (hf.symm.trans hf₁)
    obtain rfl := Option.some.inj (ho.symm.trans ho₁)
    obtain rfl := Option.some.inj (ho'.symm.trans ho₂)
    have hpair := pairwise_of_inOrder (inOrder_zip_place ha p.contentOffset.toNat payloads).1
    have hget₁ := (List.getElem?_zip_eq_some (z := (o.toNat, payload₁))).mpr ⟨hplace₁, hpayload₁⟩
    have hget₂ := (List.getElem?_zip_eq_some (z := (o'.toNat, payload₂))).mpr ⟨hplace₂, hpayload₂⟩
    obtain ⟨hk', hkeq⟩ := List.getElem?_eq_some_iff.mp hget₁
    obtain ⟨hl', hleq⟩ := List.getElem?_eq_some_iff.mp hget₂
    have hle := List.pairwise_iff_getElem.mp hpair k l hk' hl' hkl
    rw [hkeq, hleq, hemits₁.2] at hle
    exact hle
  · rw [hlen, ← hend] at hx
    refine getElem?_assemble_of_gap hin' (Nat.zero_le _) hx fun r hr => ?_
    simp only [CpkPlan.regions, CpkPlan.indexRegions, List.mem_append, List.mem_cons,
      List.not_mem_nil, or_false] at hr
    rcases hr with ((rfl | rfl) | hr | hr) | rfl | hr | rfl
    · simp only
      omega
    · exact hmarker
    · cases htable : p.tocTable with
      | none => simp [indexRegion, htable] at hr
      | some table =>
        rw [indexRegion.eq_def, htable] at hr
        obtain rfl := List.mem_singleton.mp hr
        rw [(tocRegion_bounds hp htable).1]
        exact htoc table htable
    · cases htable : p.itocTable with
      | none => simp [indexRegion, htable] at hr
      | some table =>
        rw [indexRegion.eq_def, htable] at hr
        obtain rfl := List.mem_singleton.mp hr
        exact hitoc table htable
    · simp only [List.length_nil]
      omega
    · obtain ⟨i, f, o, hf, ho, hoff, hsize⟩ := region_entry hp hpayloads hr
      rw [hoff, hsize]
      exact hentries i f o hf ho
    · simp only [List.length_nil]
      omega

end Entries

end Layout

/-- **The layout invariant of the writer.** None of its internal checks fails, on any stream; and
on an empty one an archive that it returns has the layout of its plan, which it reports.

**Proof sketch.** `writeWithProfile_ends` says how a call ends, on any stream: an error is not one
of the internal checks, and a success leaves the payloads of the plan written over the stream. On an
empty stream these bytes are the assembled regions (`layout_assemble`). -/
theorem writeWithProfile_layout (fs : FileSystem) (path : P5RPath) (files : List CpkInputFile)
    (options : CpkWriterOptions) (profile : CpkWriterProfile) :
    (∀ s check w,
      (writeWithProfile fs path files options profile s).1 ≠ .err (.inconsistent check w)) ∧
    ∀ report t, writeWithProfile fs path files options profile ⟨[], 0⟩ = (.ok report, t) →
      ∃ plan, planArchive files options profile = .ok plan ∧ report = plan.report ∧
        plan.Layout files profile.indexMode options.alignment.toNat t.bytes := by
  refine ⟨fun s check w herr => ?_, fun report t hok => ?_⟩
  · exact (writeWithProfile_ends fs path files options profile s).of_err herr check w rfl
  · obtain ⟨plan, payloads, hplan, hreport, hp, hpayloads, hover⟩ :=
      (writeWithProfile_ends fs path files options profile ⟨[], 0⟩).of_ok hok
    refine ⟨plan, hplan, hreport, ?_⟩
    rw [hover.bytes_eq]
    exact layout_assemble hp hpayloads

/-- The small archive is laid out by its plan. -/
theorem writeWithProfile_layout_sample : ∃ (out : ByteStream) (plan : CpkPlan),
    writeWithProfile sampleFileSystem .u64 sampleFiles ⟨16, false⟩ (sampleProfile .tocAndItoc)
      ⟨[], 0⟩ = (.ok ⟨2, 2048, 2288, 2576, 2864⟩, out) ∧
    plan.Layout sampleFiles .tocAndItoc 16 out.bytes := by
  obtain ⟨out, hwrite⟩ := sampleRun_tocAndItoc
  obtain ⟨plan, -, -, hlayout⟩ := (writeWithProfile_layout sampleFileSystem .u64 sampleFiles
    ⟨16, false⟩ (sampleProfile .tocAndItoc)).2 _ out hwrite
  exact ⟨out, plan, hwrite, hlayout⟩

end CriArchive
