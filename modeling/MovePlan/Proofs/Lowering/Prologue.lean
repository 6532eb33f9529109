import MovePlan.Proofs.Lowering.Prologue.Opening

set_option autoImplicit false

namespace MovePlan
open Draft Machine

theorem lastWrite_zipIdx {α : Type} [DecidableEq α] {xs : List α} (h : xs.Nodup) {k i : ℕ} {x : α} :
    lastWrite x (xs.zipIdx k) = some i ↔ k ≤ i ∧ xs[i - k]? = some x := by
  constructor
  · intro hi
    exact List.mk_mem_zipIdx_iff_le_and_getElem?_sub.1 (mem_of_lastWrite hi)
  · intro hi
    refine lastWrite_eq_some (List.mk_mem_zipIdx_iff_le_and_getElem?_sub.2 hi) fun j hj => ?_
    obtain ⟨hle, hget⟩ := List.mk_mem_zipIdx_iff_le_and_getElem?_sub.1 hj
    have hlt : i - k < xs.length := (List.getElem?_eq_some_iff.1 hi.2).1
    have heq : i - k = j - k := (List.getElem?_inj hlt h).1 (hi.2.trans hget.symm)
    omega

/-- The first events of some code: its entry, a block for each id, and a slot for each name. -/
def openingEvents (ids : List BlockId) (slots : List String) : List Event :=
  .block (.plain "entry") :: (ids.map fun id => .block (.plain s!"bb{id}")) ++
    slots.map fun n => .instr 0 n .allocSlot

/-- The block that a block of the code was opened for. The entry was opened for none. -/
def blockAt? (ids : List BlockId) : BlockNo → Option BlockId
  | 0 => none
  | b + 1 => ids[b]?

namespace Skeleton
variable (globals : OrderedMap String Global) (sk : Skeleton)

def ids (sk : Skeleton) : List BlockId := sk.blocks.map SkeletonBlock.id

def entryDraft (globals : OrderedMap String Global) : Draft :=
  (({ globals := globals } : Draft).newBlock (.plain "entry")).1

def withBlocks : Draft := (openBlocks sk.ids (entryDraft globals)).1.goTo 0

def withSlots : Draft := (openSlots sk.slots (withBlocks globals sk)).1

def withFlags : Draft := (openFlags sk.flags (withSlots globals sk)).1

def layout : Layout where
  slots := (openSlots sk.slots (withBlocks globals sk)).2
  flags := (openFlags sk.flags (withSlots globals sk)).2
  blocks := (openBlocks sk.ids (entryDraft globals)).2

def beforeBlocks : Draft :=
  (withFlags globals sk).put (.branch ((layout globals sk).block sk.entry))

theorem sound_entryDraft : (entryDraft globals).Sound :=
  ⟨rfl, fun x hx => absurd hx (by simp [Draft.code, entryDraft, newBlock, numberedInstrs]), Nat.zero_lt_one⟩

theorem extends_withBlocks : (entryDraft globals).Extends (withBlocks globals sk) := by
  have hopen := extends_openBlocks (sound_entryDraft globals) sk.ids
  exact hopen.goTo (.inl rfl) (Nat.lt_of_lt_of_le Nat.zero_lt_one hopen.blocks)

theorem code_withBlocks : (withBlocks globals sk).code = [] := code_openBlocks sk.ids (entryDraft globals)

theorem values_withBlocks : (withBlocks globals sk).values = 0 := by
  rw [← (extends_withBlocks globals sk).sound.values, code_withBlocks]
  rfl

theorem blocks_withBlocks : (withBlocks globals sk).blocks = 1 + sk.ids.length :=
  blocks_openBlocks sk.ids (entryDraft globals)

theorem extends_withSlots : (withBlocks globals sk).Extends (withSlots globals sk) :=
  extends_openSlots (extends_withBlocks globals sk).sound sk.slots

theorem extends_withFlags : (withSlots globals sk).Extends (withFlags globals sk) :=
  extends_openFlags (extends_withSlots globals sk).sound sk.flags

theorem extends_beforeBlocks : (withFlags globals sk).Extends (beforeBlocks globals sk) :=
  extends_put (extends_withFlags globals sk).sound _

theorem extends_prologue : (withBlocks globals sk).Extends (beforeBlocks globals sk) :=
  ((extends_withSlots globals sk).trans (extends_withFlags globals sk)).trans (extends_beforeBlocks globals sk)

theorem here_withSlots : (withSlots globals sk).here = 0 := here_openSlots sk.slots (withBlocks globals sk)

theorem here_withFlags : (withFlags globals sk).here = 0 :=
  (here_openFlags sk.flags (withSlots globals sk)).trans (here_withSlots globals sk)

theorem layout_blocks : (layout globals sk).blocks = sk.ids.zipIdx 1 := openBlocks_eq sk.ids (entryDraft globals)

theorem layout_slots : (layout globals sk).slots = sk.slots.zipIdx 0 := by
  rw [← values_withBlocks globals sk]
  exact openSlots_eq sk.slots (withBlocks globals sk)

theorem map_layout_flags : (layout globals sk).flags.map Prod.fst = sk.flags.map FlagSlot.name :=
  map_openFlags sk.flags (withSlots globals sk)

theorem layout_apart : (layout globals sk).Apart :=
  fun h h' => openFlags_apart sk.flags (withSlots globals sk) (mem_of_lastWrite h) (mem_of_lastWrite h')

variable {globals sk}

theorem lists_iff {b : BlockNo} :
    (layout globals sk).lists b = true ↔ 1 ≤ b ∧ b < 1 + sk.ids.length := by
  rw [Layout.lists, List.contains_iff_mem, layout_blocks, List.zipIdx_map_snd, List.mem_range'_1]

theorem lists_block {id : BlockId} (h : id ∈ sk.ids) :
    (layout globals sk).lists ((layout globals sk).block id) = true := by
  obtain ⟨i, hi⟩ := List.mem_iff_getElem?.1 h
  have hmem : (id, 1 + i) ∈ sk.ids.zipIdx 1 :=
    List.mk_mem_zipIdx_iff_le_and_getElem?_sub.2 ⟨by omega, by rw [Nat.add_sub_cancel_left]; exact hi⟩
  obtain ⟨b, hb⟩ := exists_lastWrite hmem
  rw [Layout.block, layout_blocks, hb, Option.getD_some, Layout.lists, List.contains_iff_mem, layout_blocks]
  exact List.mem_map_of_mem (mem_of_lastWrite hb)

theorem block_eq_iff (hnodup : sk.ids.Nodup) {id : BlockId} (h : id ∈ sk.ids) {i : ℕ} :
    (layout globals sk).block id = i + 1 ↔ sk.ids[i]? = some id := by
  obtain ⟨j, hj⟩ := List.mem_iff_getElem?.1 h
  have hblock : (layout globals sk).block id = j + 1 := by
    have hwrite := (lastWrite_zipIdx hnodup (k := 1) (i := j + 1)).2 ⟨by omega, hj⟩
    rw [Layout.block, layout_blocks, hwrite]
    rfl
  rw [hblock]
  have hlt : j < sk.ids.length := (List.getElem?_eq_some_iff.1 hj).1
  constructor
  · intro heq
    exact Nat.succ.inj heq ▸ hj
  · intro hi
    rw [(List.getElem?_inj hlt hnodup).1 (hj.trans hi.symm)]

theorem block_inj (hnodup : sk.ids.Nodup) {id id' : BlockId} (h : id ∈ sk.ids) (h' : id' ∈ sk.ids)
    (heq : (layout globals sk).block id = (layout globals sk).block id') : id = id' := by
  obtain ⟨j, hj⟩ := List.mem_iff_getElem?.1 h
  have hblock : (layout globals sk).block id = j + 1 := (block_eq_iff hnodup h).2 hj
  rw [heq, block_eq_iff hnodup h', hj, Option.some.injEq] at hblock
  exact hblock

theorem blockAt?_of_not_lists {b : BlockNo} (h : (layout globals sk).lists b = false) :
    blockAt? sk.ids b = none := by
  cases b with
  | zero => rfl
  | succ b =>
    rw [Bool.eq_false_iff, ne_eq, lists_iff] at h
    rw [blockAt?, List.getElem?_eq_none_iff]
    have hle : 1 ≤ b + 1 := Nat.le_add_left 1 b
    have hnot : ¬ b + 1 < 1 + sk.ids.length := fun hlt => h ⟨hle, hlt⟩
    rw [Nat.add_comm 1] at hnot
    exact Nat.le_of_succ_le_succ (Nat.not_lt.1 hnot)

theorem blockAt?_block (hnodup : sk.ids.Nodup) {id : BlockId}
    (h : (layout globals sk).lists ((layout globals sk).block id) = true) :
    blockAt? sk.ids ((layout globals sk).block id) = some id := by
  have hmem : id ∈ sk.ids := by
    rw [lists_iff, Layout.block, layout_blocks] at h
    cases hw : lastWrite id (sk.ids.zipIdx 1) with
    | none =>
      rw [hw] at h
      exact absurd h.1 (by decide)
    | some b => exact List.mem_of_getElem? ((lastWrite_zipIdx hnodup).1 hw).2
  obtain ⟨i, hi⟩ := List.mem_iff_getElem?.1 hmem
  rw [(block_eq_iff hnodup hmem).2 hi]
  exact hi

theorem filterMap_blockAt? (hnodup : sk.ids.Nodup) {bs : List BlockNo} {entered : List BlockId}
    (h : bs.filter (layout globals sk).lists = entered.map (layout globals sk).block) :
    bs.filterMap (blockAt? sk.ids) = entered := by
  have hlists : ∀ id ∈ entered, (layout globals sk).lists ((layout globals sk).block id) = true := by
    intro id hid
    have hmem := List.mem_map_of_mem (f := (layout globals sk).block) hid
    rw [← h] at hmem
    exact (List.mem_filter.1 hmem).2
  have hsame : bs.filterMap (blockAt? sk.ids) =
      (bs.filter (layout globals sk).lists).filterMap (blockAt? sk.ids) := by
    rw [List.filterMap_filter]
    refine List.filterMap_congr fun b _ => ?_
    split
    · rfl
    next hb => exact blockAt?_of_not_lists (Bool.not_eq_true _ ▸ hb)
  rw [hsame, h, List.filterMap_map]
  calc entered.filterMap (blockAt? sk.ids ∘ (layout globals sk).block)
      = entered.filterMap some :=
        List.filterMap_congr fun id hid => blockAt?_block hnodup (hlists id hid)
    _ = entered := List.filterMap_some

theorem below_beforeBlocks : (layout globals sk).Below (beforeBlocks globals sk) := by
  intro b hb
  have hle := (extends_prologue globals sk).blocks
  rw [blocks_withBlocks] at hle
  exact Nat.lt_of_lt_of_le (lists_iff.1 hb).2 hle

theorem ready_beforeBlocks {x : SkeletonBlock} (hx : x ∈ sk.blocks) :
    Ready (layout globals sk) (beforeBlocks globals sk).values x (beforeBlocks globals sk) := by
  have hextends := extends_prologue globals sk
  refine ⟨hextends.sound, Nat.le_refl _, below_beforeBlocks, fun y hy heq => ?_⟩
  have hlists : (layout globals sk).lists ((layout globals sk).block x.id) = true :=
    lists_block (List.mem_map_of_mem hx)
  rw [← heq, lists_iff] at hlists
  obtain ⟨new, hnew, hin⟩ := hextends.added
  rw [hnew, code_withBlocks, List.nil_append] at hy
  have hblocks := blocks_withBlocks globals sk
  have hhere : (withBlocks globals sk).here = 0 := rfl
  rcases hin y hy with hplace | hplace
  · rw [hplace, hhere] at hlists
    exact absurd hlists.1 (by decide)
  · rw [hblocks] at hplace
    exact absurd hlists.2 (Nat.not_lt.2 hplace)

theorem nodup_blocks (hnodup : sk.ids.Nodup) :
    (sk.blocks.map fun x => (layout globals sk).block x.id).Nodup := by
  have hmap : sk.blocks.map (fun x => (layout globals sk).block x.id) =
      sk.ids.map (layout globals sk).block := by
    rw [ids, List.map_map]
    rfl
  rw [hmap]
  exact hnodup.map_on fun id hid id' hid' heq => block_inj hnodup hid hid' heq

theorem lowered_of_fits (hfits : ∀ x ∈ sk.blocks, x.Fits (layout globals sk)) (hnodup : sk.ids.Nodup)
    {x : SkeletonBlock} (hx : x ∈ sk.blocks) : ∃ d, Lowered (Draft.ofSkeleton globals sk).code
      (layout globals sk) (beforeBlocks globals sk).values x d :=
  (extends_blocks (fun _ hy => ready_beforeBlocks hy) hfits (nodup_blocks hnodup)).2.2 _ List.prefix_rfl x hx

theorem beforeBlocks_isPrefix (hfits : ∀ x ∈ sk.blocks, x.Fits (layout globals sk))
    (hnodup : sk.ids.Nodup) :
    (beforeBlocks globals sk).code <+: (Draft.ofSkeleton globals sk).code :=
  (extends_blocks (fun _ hy => ready_beforeBlocks hy) hfits (nodup_blocks hnodup)).1

theorem opening_isPrefix (hfits : ∀ x ∈ sk.blocks, x.Fits (layout globals sk)) (hnodup : sk.ids.Nodup) :
    openingEvents sk.ids sk.slots <+: (Draft.ofSkeleton globals sk).trail.reverse := by
  have hslots : (withSlots globals sk).trail.reverse = openingEvents sk.ids sk.slots := by
    have htrail : (withSlots globals sk).trail = _ := trail_openSlots sk.slots (withBlocks globals sk)
    have hopen : (withBlocks globals sk).trail = _ := trail_openBlocks sk.ids (entryDraft globals)
    rw [htrail, hopen, List.reverse_append, List.reverse_append, List.reverse_reverse, List.reverse_reverse]
    rfl
  have hsuffix := ((extends_withFlags globals sk).trans (extends_beforeBlocks globals sk)).trail.trans
    (extends_blocks (fun _ hy => ready_beforeBlocks hy) hfits (nodup_blocks hnodup)).2.1
  rw [← hslots, List.reverse_prefix]
  exact hsuffix

theorem pending_withBlocks (whole : Code) : pending whole (withBlocks globals sk) 0 = whole.instrsAt 0 := by
  refine pending_eq_instrsAt (extends_withBlocks globals sk).sound ?_ fun x hx => ?_
  · rw [code_withBlocks]
    exact List.nil_prefix
  · rw [code_withBlocks] at hx
    cases hx

theorem lt_values_of_slot {n : String} {c : ValueNo} (h : (n, c) ∈ (layout globals sk).slots) :
    c < (withSlots globals sk).values := by
  rw [layout_slots] at h
  have hget := (List.mk_mem_zipIdx_iff_le_and_getElem?_sub.1 h).2
  have hsize : (withSlots globals sk).values = _ := values_openSlots sk.slots (withBlocks globals sk)
  rw [hsize, values_withBlocks, Nat.zero_add]
  exact (List.getElem?_eq_some_iff.1 hget).1

theorem lists_zero : (layout globals sk).lists 0 = false := by
  rw [Bool.eq_false_iff, ne_eq, lists_iff]
  exact fun h => absurd h.1 (by decide)

def ShowsFlags (sk : Skeleton) (flags : FlagValues) : Prop :=
  ∀ n, flags.get? n = lastWrite n (sk.flags.map fun x => (x.name, x.initially))

/-- The code runs to its first block, with slots made and flags set as they are on entry. -/
theorem reaches_first {whole : Code} (hwhole : (beforeBlocks globals sk).code <+: whole)
    (hentry : sk.entry ∈ sk.ids) {flags : FlagValues} (hflags : sk.ShowsFlags flags) (choices : Choices) :
    ∃ s, Reaches whole (start whole choices) s ∧
      s.rest = whole.instrsAt ((layout globals sk).block sk.entry) ∧
      Shows (layout globals sk) (beforeBlocks globals sk).values s
        { flags := flags, choices := choices, blocks := [(layout globals sk).block sk.entry] } := by
  have hopen := (extends_withBlocks globals sk).sound
  have hslots := extends_withSlots globals sk
  have hmade := extends_withFlags globals sk
  have hlast := extends_beforeBlocks globals sk
  have hin := hlast.code_isPrefix.trans hwhole
  obtain ⟨s₁, hreach₁, hrest₁, hprep₁, hslot⟩ := reaches_openSlots (s := start whole choices) hopen
    (hmade.code_isPrefix.trans hin) (pending_withBlocks whole).symm
  obtain ⟨s₂, hreach₂, hrest₂, hprep₂, hflag⟩ := reaches_openFlags (d := withSlots globals sk) (s := s₁)
    hslots.sound hin (by rw [here_withSlots]; exact hrest₁)
  rw [here_withSlots, ← here_withFlags globals sk] at hrest₂
  have hbranch := hrest₂.trans (pending_emit hmade.sound hwhole)
  refine ⟨_, (hreach₁.trans hreach₂).trans (.single (step_branch hbranch)), rfl, ?_⟩
  have hvalues : (withSlots globals sk).values ≤ (withFlags globals sk).values :=
    values_openFlags sk.flags (withSlots globals sk)
  have hblocks : s₂.blocks = [0] := hprep₂.blocks.trans hprep₁.blocks
  have hshows : Shows (layout globals sk) (beforeBlocks globals sk).values s₂
      { flags := flags, choices := choices } := by
    refine ⟨fun {n c} hn => ?_, fun {n c} hn => ?_, hprep₂.choices.trans hprep₁.choices, ?_, ?_⟩
    · have hmem := mem_of_lastWrite hn
      have hlt : c < (withSlots globals sk).values := lt_values_of_slot hmem
      exact ⟨Nat.lt_succ_of_lt (Nat.lt_of_lt_of_le hlt hvalues),
        (hprep₂.registers c hlt).trans (hslot _ hmem)⟩
    · obtain ⟨bit, hbit, hcell⟩ := hflag hn
      have hlt := (openFlags_cells sk.flags (withSlots globals sk) _ (mem_of_lastWrite hn)).2
      exact ⟨Nat.lt_succ_of_lt hlt, bit, (hflags n).trans hbit, hcell⟩
    · rw [hblocks, List.filter_cons, lists_zero]
      rfl
    · rw [hprep₂.calls, hprep₁.calls]
      rfl
  exact (hshows.set_rest _).enter (lists_block hentry)

end Skeleton
end MovePlan
