import MovePlan.Proofs.Flow.Invariants

set_option autoImplicit false

namespace MovePlan
namespace Builder
variable {b : Builder}

theorem hasBlock_addEdge {src dst : BlockId} {kind : EdgeKind} {label : Option String}
    (h : b.function.hasBlock src = true) {x : BlockId} :
    (b.addEdge src dst kind label).function.hasBlock x = true ↔ b.function.hasBlock x = true := by
  rw [addEdge, hasBlock_mapBlock, or_iff_right_iff_imp]
  rintro rfl
  exact h

theorem hasBlock_drawJumps {jumps : List (BlockId × String)}
    (h : ∀ j ∈ jumps, b.function.hasBlock j.1 = true) (dangling : BlockId) {x : BlockId} :
    (b.drawJumps dangling jumps).function.hasBlock x = true ↔ b.function.hasBlock x = true := by
  induction jumps generalizing b dangling with
  | nil => rfl
  | cons j jumps ih =>
    have hsrc := h j List.mem_cons_self
    have hrest : ∀ dst, ∀ k ∈ jumps,
        (b.addEdge j.1 dst .jump (some j.2)).function.hasBlock k.1 = true :=
      fun dst k hk => (hasBlock_addEdge hsrc).2 (h k (List.mem_cons_of_mem _ hk))
    rw [drawJumps]
    split
    · exact (ih (hrest _) _).trans (hasBlock_addEdge hsrc)
    · exact (ih (hrest _) _).trans (hasBlock_addEdge hsrc)

theorem mem_edgesAt_drawJumps {jumps : List (BlockId × String)} {dangling x : BlockId} {e : Edge}
    (he : e ∈ (b.drawJumps dangling jumps).function.edgesAt x) : e ∈ b.function.edgesAt x ∨
      e.src = x ∧ e.kind = .jump ∧ DrawnTo b.labels dangling e := by
  induction jumps generalizing b dangling with
  | nil => exact .inl he
  | cons j jumps ih =>
    have hnew : ∀ {dst : BlockId}, DrawnTo b.labels dangling ⟨j.1, dst, .jump, some j.2⟩ →
        e ∈ (b.addEdge j.1 dst .jump (some j.2)).function.edgesAt x → e ∈ b.function.edgesAt x ∨
          e.src = x ∧ e.kind = .jump ∧ DrawnTo b.labels dangling e := by
      intro dst hto he
      rw [edgesAt_addEdge] at he
      split at he
      next heq =>
        rcases List.mem_append.1 he with he | he
        · exact .inl (heq ▸ he)
        · rw [List.mem_singleton.1 he]
          exact .inr ⟨heq.symm, rfl, hto⟩
      next => exact .inl he
    rw [drawJumps] at he
    split at he
    next dst hdst =>
      rcases ih he with he | he
      · exact hnew ⟨j.2, rfl, .inl hdst⟩ he
      · exact .inr he
    next hnone =>
      rcases ih he with he | ⟨hsrc, hk, hto⟩
      · exact hnew ⟨j.2, rfl, .inr ⟨hnone, le_rfl⟩⟩ he
      · exact .inr ⟨hsrc, hk, hto.mono (Int.le_add_one le_rfl)⟩

theorem sitesAt_finish (b : Builder) (x : BlockId) :
    b.finish.function.sitesAt x = b.function.sitesAt x :=
  drawJumps_induction (P := fun c => c.function.sitesAt x = b.function.sitesAt x)
    (fun c _ _ _ h => (sitesAt_addEdge _ _ _ _ c x).trans h) rfl b.nextBlock b.jumps

theorem labelAt_finish (b : Builder) (x : BlockId) :
    b.finish.function.labelAt x = b.function.labelAt x :=
  drawJumps_induction (P := fun c => c.function.labelAt x = b.function.labelAt x)
    (fun c _ _ _ h => (labelAt_addEdge _ _ _ _ c x).trans h) rfl b.nextBlock b.jumps

theorem mem_allSites_finish {s : Site} : s ∈ b.finish.function.allSites ↔ s ∈ b.function.allSites :=
  Function.mem_allSites_congr (sitesAt_finish b)

theorem binding?_finish (b : Builder) : ∃ change : String → Binding → Binding,
    (∀ name, b.finish.function.binding? name = (b.function.binding? name).map (change name)) ∧
    ∀ name x, (change name x).isParam = x.isParam ∧ (change name x).mode = x.mode ∧
      (change name x).region = x.region ∧ (x.captured = true → (change name x).captured = true) := by
  let drawn := (b.drawJumps b.nextBlock b.jumps).function
  have hsame : drawn.bindings = b.function.bindings :=
    drawJumps_induction (P := fun c => c.function.bindings = b.function.bindings) (fun _ _ _ _ h => h) rfl _ _
  refine ⟨fun name x => if name ∈ drawn.capturedNames then { x with captured := true } else x, ?_, ?_⟩
  · intro name
    rw [Function.binding?, Function.binding?, ← hsame]
    exact OrderedMap.get?_mapEntries _ _ name
  · intro name x
    dsimp only
    split
    · exact ⟨rfl, rfl, rfl, fun _ => rfl⟩
    · exact ⟨rfl, rfl, rfl, id⟩

theorem Laid.hasBlock_finish (h : b.Laid) {id : BlockId} :
    b.finish.function.hasBlock id = true ↔ Opened b.nextBlock id :=
  (hasBlock_drawJumps (fun _ hj => h.block.2 (h.jump hj)) _).trans h.block

theorem Laid.mem_edgesAt_finish (h : b.Laid) {x : BlockId} {e : Edge}
    (he : e ∈ b.finish.function.edgesAt x) :
    e.src = x ∧ (e.kind = .jump → DrawnTo b.labels (b.nextBlock : ℤ) e) := by
  rcases mem_edgesAt_drawJumps he with he | ⟨hsrc, -, hto⟩
  · obtain ⟨hsrc, -, hk⟩ := h.edge he
    exact ⟨hsrc, fun hjump => absurd hjump hk⟩
  · exact ⟨hsrc, fun _ => hto⟩

theorem Laid.leadsToLabel (h : b.Laid) {e : Edge} (he : DrawnTo b.labels (b.nextBlock : ℤ) e) :
    b.finish.function.LeadsToLabel e :=
  Function.leadsToLabel (fun {_ _} => by rw [labelAt_finish, h.label])
    (fun hid => (h.hasBlock_finish.1 hid).2) he

theorem signatureFits_finish (h : b.function.SignatureFits) : b.finish.function.SignatureFits := by
  obtain ⟨change, hb, hkeep⟩ := b.binding?_finish
  refine h.congr ?_ ?_ ?_ hb fun name x => ⟨(hkeep name x).1, (hkeep name x).2.1, (hkeep name x).2.2.2⟩
  · exact drawJumps_induction (P := fun c => c.function.params = b.function.params) (fun _ _ _ _ h => h)
      rfl _ _
  · exact drawJumps_induction (P := fun c => c.function.forwards = b.function.forwards)
      (fun _ _ _ _ h => h) rfl _ _
  · exact drawJumps_induction (P := fun c => c.function.captures = b.function.captures)
      (fun _ _ _ _ h => h) rfl _ _

theorem Sound.shaped (h : b.Sound) : b.finish.function.Shaped where
  source he := (h.laid.mem_edgesAt_finish he).1
  jump he hk := h.laid.leadsToLabel ((h.laid.mem_edgesAt_finish he).2 hk)
  position hi := h.numbered.position (sitesAt_finish b _ ▸ hi)
  ids := Function.nodup_ids (fun hi => h.numbered.position (sitesAt_finish b _ ▸ hi))
    fun hs ht => h.numbered.id_inj (mem_allSites_finish.1 hs) (mem_allSites_finish.1 ht)
  temporary hs := (h.numbered.complete (mem_allSites_finish.1 hs)).temporary
  target hs := (h.numbered.complete (mem_allSites_finish.1 hs)).target trivial
  params hn := (signatureFits_finish h.signature).params.1 hn
  forwards hi := (signatureFits_finish h.signature).forwards hi

theorem Sound.hasBlock_entry (h : b.Sound) :
    b.finish.function.hasBlock b.finish.function.entry = true := by
  have hentry : b.finish.function.entry = b.function.entry :=
    drawJumps_induction (P := fun c => c.function.entry = b.function.entry) (fun _ _ _ _ h => h) rfl _ _
  rw [hentry, h.laid.entry, h.laid.hasBlock_finish]
  exact ⟨le_rfl, Int.ofNat_lt.2 h.laid.first⟩

theorem Sound.region_finish (h : b.Sound) {name : String} {x : Binding} {r : List BlockId}
    (hx : b.finish.function.binding? name = some x) (hr : x.region = some r) :
    (∀ id ∈ r, b.finish.function.hasBlock id = true) ∧
      ∀ s ∈ b.finish.function.allSites, s.binding = some name → s.kind = .decl → s.block ∈ r := by
  obtain ⟨change, hb, hkeep⟩ := b.binding?_finish
  rw [hb, Option.map_eq_some_iff] at hx
  obtain ⟨y, hy, rfl⟩ := hx
  rw [(hkeep name y).2.2.1] at hr
  obtain ⟨hopened, hdecl⟩ := h.scopes.region hy hr
  exact ⟨fun id hid => h.laid.hasBlock_finish.2 (hopened id hid),
    fun s hs => hdecl s (mem_allSites_finish.1 hs)⟩

/-- The codes of the defects that no finished function has. -/
def finishedCodes : List String := "E_CFG_NO_ENTRY" :: "E_CFG_REGION" :: Function.shapeCodes

theorem Sound.code_notMem (h : b.Sound) {model : Option TypeModel} {d : Defect}
    (hd : b.finish.function.Flawed model d) : d.code ∉ finishedCodes := by
  have hshape := h.shaped.code_notMem hd
  rw [finishedCodes, List.mem_cons, List.mem_cons, not_or, not_or]
  cases hd with
  | unknownRegionBlocks hb hr hid hmissing =>
    rw [(h.region_finish hb hr).1 _ hid] at hmissing
    cases hmissing
  | @declOutsideRegion name x s hb hs hn hk hout =>
    rw [Binding.inRegion] at hout
    split at hout
    · cases hout
    next r hr =>
      rw [h.built.tidy.finish.declared.keyed hb] at hn
      have hin := (h.region_finish hb hr).2 s hs hn hk
      simp [hin] at hout
  | _ => exact ⟨by simp [Defect.code], by simp [Defect.code], hshape⟩

theorem Sound.codes_finish (h : b.Sound) {model : Option TypeModel} {ds : List Diagnostic}
    (hds : b.finish.function.validate model = .ok ds) {d : Diagnostic} (hd : d ∈ ds) {code : String}
    (hcode : code ∈ finishedCodes) : d.code ≠ some code := by
  refine Function.codes_of_validate (fun hentry => ?_) (fun d => h.code_notMem) hds hd hcode
  rw [h.hasBlock_entry] at hentry
  cases hentry

end Builder
end MovePlan
