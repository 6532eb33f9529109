import Mathlib.Data.List.Nodup
import MovePlan.Proofs.Lowering.Blocks

set_option autoImplicit false

namespace MovePlan
open Draft Machine

namespace Draft
variable {d : Draft} {whole : Code} {s : Machine}

theorem extends_openBlocks (hd : d.Sound) (ids : List BlockId) : d.Extends (openBlocks ids d).1 := by
  induction ids generalizing d with
  | nil => exact .refl hd
  | cons id ids ih =>
    have hfirst := extends_newBlock hd (.plain s!"bb{id}")
    exact hfirst.trans (ih hfirst.sound)

theorem openBlocks_eq (ids : List BlockId) (d : Draft) : (openBlocks ids d).2 = ids.zipIdx d.blocks := by
  induction ids generalizing d with
  | nil => rfl
  | cons id ids ih => exact congrArg (List.cons _) (ih _)

theorem trail_openBlocks (ids : List BlockId) (d : Draft) : (openBlocks ids d).1.trail =
    (ids.map fun id => Event.block (.plain s!"bb{id}")).reverse ++ d.trail := by
  induction ids generalizing d with
  | nil => rfl
  | cons id ids ih =>
    rw [List.map_cons, List.reverse_cons, List.append_assoc]
    exact ih _

theorem code_openBlocks (ids : List BlockId) (d : Draft) : (openBlocks ids d).1.code = d.code := by
  induction ids generalizing d with
  | nil => rfl
  | cons id ids ih =>
    have hrest : (openBlocks (id :: ids) d).1.code = (d.newBlock (.plain s!"bb{id}")).1.code := ih _
    rw [hrest, code_newBlock]

theorem blocks_openBlocks (ids : List BlockId) (d : Draft) :
    (openBlocks ids d).1.blocks = d.blocks + ids.length := by
  induction ids generalizing d with
  | nil => rfl
  | cons id ids ih =>
    have hrest : (openBlocks (id :: ids) d).1.blocks = d.blocks + 1 + ids.length := ih _
    rw [hrest, List.length_cons]
    omega

theorem extends_openSlots (hd : d.Sound) (ns : List String) : d.Extends (openSlots ns d).1 := by
  induction ns generalizing d with
  | nil => exact .refl hd
  | cons n ns ih =>
    have hfirst := extends_emit hd n .allocSlot
    exact hfirst.trans (ih hfirst.sound)

theorem openSlots_eq (ns : List String) (d : Draft) : (openSlots ns d).2 = ns.zipIdx d.values := by
  induction ns generalizing d with
  | nil => rfl
  | cons n ns ih => exact congrArg (List.cons _) (ih _)

theorem here_openSlots (ns : List String) (d : Draft) : (openSlots ns d).1.here = d.here := by
  induction ns generalizing d with
  | nil => rfl
  | cons n ns ih => exact ih _

theorem values_openSlots (ns : List String) (d : Draft) :
    (openSlots ns d).1.values = d.values + ns.length := by
  induction ns generalizing d with
  | nil => rfl
  | cons n ns ih =>
    have hrest : (openSlots (n :: ns) d).1.values = d.values + 1 + ns.length := ih _
    rw [hrest, List.length_cons]
    omega

theorem trail_openSlots (ns : List String) (d : Draft) : (openSlots ns d).1.trail =
    (ns.map fun n => Event.instr d.here n .allocSlot).reverse ++ d.trail := by
  induction ns generalizing d with
  | nil => rfl
  | cons n ns ih =>
    rw [List.map_cons, List.reverse_cons, List.append_assoc]
    exact ih _

def openFlag (d : Draft) (x : FlagSlot) : Draft :=
  let d' := (d.emit x.name .allocFlag).1.put (.store false d.values)
  if x.initially then d'.put (.store true d.values) else d'

theorem openFlags_cons (x : FlagSlot) (xs : List FlagSlot) (d : Draft) : openFlags (x :: xs) d =
    ((openFlags xs (openFlag d x)).1, (x.name, d.values) :: (openFlags xs (openFlag d x)).2) := rfl

theorem extends_openFlag (hd : d.Sound) (x : FlagSlot) : d.Extends (openFlag d x) := by
  have hmade := extends_emit hd x.name .allocFlag
  have hcleared := hmade.trans (extends_put hmade.sound (.store false d.values))
  unfold openFlag
  dsimp only
  split
  · exact hcleared.trans (extends_put hcleared.sound _)
  · exact hcleared

theorem here_openFlag (d : Draft) (x : FlagSlot) : (openFlag d x).here = d.here := by
  unfold openFlag
  dsimp only
  split <;> rfl

theorem values_openFlag (d : Draft) (x : FlagSlot) : d.values < (openFlag d x).values := by
  have hcleared : ((d.emit x.name .allocFlag).1.put (.store false d.values)).values = d.values + 2 := rfl
  unfold openFlag
  dsimp only
  split
  · change d.values < d.values + 3
    omega
  · rw [hcleared]
    omega

theorem extends_openFlags (hd : d.Sound) (xs : List FlagSlot) : d.Extends (openFlags xs d).1 := by
  induction xs generalizing d with
  | nil => exact .refl hd
  | cons x xs ih =>
    rw [openFlags_cons]
    have hfirst := extends_openFlag hd x
    exact hfirst.trans (ih hfirst.sound)

theorem here_openFlags (xs : List FlagSlot) (d : Draft) : (openFlags xs d).1.here = d.here := by
  induction xs generalizing d with
  | nil => rfl
  | cons x xs ih =>
    rw [openFlags_cons, ih]
    exact here_openFlag d x

theorem values_openFlags (xs : List FlagSlot) (d : Draft) : d.values ≤ (openFlags xs d).1.values := by
  induction xs generalizing d with
  | nil => exact Nat.le_refl _
  | cons x xs ih => exact Nat.le_trans (Nat.le_of_lt (values_openFlag d x)) (ih _)

theorem openFlags_cells (xs : List FlagSlot) (d : Draft) :
    ∀ e ∈ (openFlags xs d).2, d.values ≤ e.2 ∧ e.2 < (openFlags xs d).1.values := by
  induction xs generalizing d with
  | nil => intro e he; cases he
  | cons x xs ih =>
    intro e he
    rw [openFlags_cons] at he ⊢
    have hfirst := values_openFlag d x
    have hrest := values_openFlags xs (openFlag d x)
    rcases List.mem_cons.1 he with rfl | he
    · exact ⟨Nat.le_refl _, Nat.lt_of_lt_of_le hfirst hrest⟩
    · obtain ⟨hle, hlt⟩ := ih (openFlag d x) e he
      exact ⟨Nat.le_trans (Nat.le_of_lt hfirst) hle, hlt⟩

theorem openFlags_apart (xs : List FlagSlot) (d : Draft) {n n' : String} {c : ValueNo}
    (h : (n, c) ∈ (openFlags xs d).2) (h' : (n', c) ∈ (openFlags xs d).2) : n = n' := by
  induction xs generalizing d with
  | nil => cases h
  | cons x xs ih =>
    -- the cell of the first flag comes before all others
    have hlater : ∀ n'', (n'', d.values) ∉ (openFlags xs (openFlag d x)).2 := by
      intro n'' hmem
      have hle := (openFlags_cells xs (openFlag d x) _ hmem).1
      exact absurd (values_openFlag d x) (Nat.not_lt.2 hle)
    rw [openFlags_cons] at h h'
    rcases List.mem_cons.1 h with heq | hmem
    · rw [Prod.mk.injEq] at heq
      rcases List.mem_cons.1 h' with heq' | hmem'
      · rw [Prod.mk.injEq] at heq'
        rw [heq.1, heq'.1]
      · exact absurd (heq.2 ▸ hmem') (hlater n')
    · rcases List.mem_cons.1 h' with heq' | hmem'
      · rw [Prod.mk.injEq] at heq'
        exact absurd (heq'.2 ▸ hmem) (hlater n)
      · exact ih _ hmem hmem'

theorem map_openFlags (xs : List FlagSlot) (d : Draft) :
    (openFlags xs d).2.map Prod.fst = xs.map FlagSlot.name := by
  induction xs generalizing d with
  | nil => rfl
  | cons x xs ih =>
    rw [openFlags_cons, List.map_cons, ih]
    rfl

/-- The machine has changed nothing but values from the given number on. -/
structure Prepares (n : ValueNo) (s s' : Machine) : Prop where
  registers : ∀ c < n, s'.registers.get? c = s.registers.get? c
  choices : s'.choices = s.choices
  blocks : s'.blocks = s.blocks
  calls : s'.calls = s.calls

theorem Prepares.trans {n k : ValueNo} {s s' s'' : Machine} (h : Prepares n s s') (h' : Prepares k s' s'')
    (hle : n ≤ k) : Prepares n s s'' where
  registers := fun c hc => (h'.registers c (Nat.lt_of_lt_of_le hc hle)).trans (h.registers c hc)
  choices := h'.choices.trans h.choices
  blocks := h'.blocks.trans h.blocks
  calls := h'.calls.trans h.calls

theorem prepares_set (s : Machine) (rest : List (ValueNo × Instr)) {n c : ValueNo} (hc : n ≤ c)
    (x : Register) : Prepares n s (({ s with rest := rest } : Machine).set c x) := by
  refine ⟨fun k hk => ?_, rfl, rfl, rfl⟩
  have hne : k ≠ c := Nat.ne_of_lt (Nat.lt_of_lt_of_le hk hc)
  exact get?_set_of_ne _ hne x

theorem reaches_openSlots (hd : d.Sound) {ns : List String} (hcode : (openSlots ns d).1.code <+: whole)
    (hrest : s.rest = pending whole d d.here) :
    ∃ s', Reaches whole s s' ∧ s'.rest = pending whole (openSlots ns d).1 d.here ∧
      Prepares d.values s s' ∧ ∀ e ∈ (openSlots ns d).2, s'.registers.get? e.2 = some .slot := by
  induction ns generalizing d s with
  | nil => exact ⟨s, .refl s, hrest, ⟨fun _ _ => rfl, rfl, rfl, rfl⟩, fun e he => by cases he⟩
  | cons n ns ih =>
    have hfirst := extends_emit hd n .allocSlot
    have hin := (extends_openSlots hfirst.sound ns).code_isPrefix.trans hcode
    rw [pending_emit hd hin] at hrest
    have hset := prepares_set s (pending whole (d.emit n .allocSlot).1 d.here) (Nat.le_refl d.values) .slot
    obtain ⟨s', hreach, hrest', hprep, hslots⟩ := ih (s := ({ s with
      rest := pending whole (d.emit n .allocSlot).1 d.here } : Machine).set d.values .slot)
      hfirst.sound hcode rfl
    refine ⟨s', (Reaches.single (step_allocSlot hrest)).trans hreach, hrest',
      hset.trans hprep (Nat.le_succ _), fun e he => ?_⟩
    rcases List.mem_cons.1 he with rfl | he
    · rw [hprep.registers _ (Nat.lt_succ_self _)]
      exact get?_set_self _ _ _
    · exact hslots e he

theorem reaches_openFlag (hd : d.Sound) (x : FlagSlot) (hcode : (openFlag d x).code <+: whole)
    (hrest : s.rest = pending whole d d.here) :
    ∃ s', Reaches whole s s' ∧ s'.rest = pending whole (openFlag d x) d.here ∧ Prepares d.values s s' ∧
      s'.registers.get? d.values = some (.flag (some x.initially)) := by
  have hstore : ∀ {d' : Draft} {s₁ : Machine} {old : Option Bool} (bit : Bool), d'.Sound →
      d'.here = d.here → (d'.put (.store bit d.values)).code <+: whole →
      s₁.rest = pending whole d' d.here → s₁.registers.get? d.values = some (.flag old) →
      ∃ s', Reaches whole s₁ s' ∧ s'.rest = pending whole (d'.put (.store bit d.values)) d.here ∧
        Prepares d.values s₁ s' ∧ s'.registers.get? d.values = some (.flag (some bit)) := by
    intro d' s₁ old bit hd' hhere hin hrest₁ hcell
    have hpending := pending_emit hd' hin
    rw [hhere] at hpending
    exact ⟨_, .single (step_store (hrest₁.trans hpending) hcell), rfl,
      prepares_set s₁ _ (Nat.le_refl d.values) _, get?_set_self _ _ _⟩
  have hmade := extends_emit hd x.name .allocFlag
  have hcleared := extends_put hmade.sound (.store false d.values)
  -- the second store stands there for a parameter only
  have hset := extends_put hcleared.sound (.store true d.values)
  unfold openFlag at hcode ⊢
  dsimp only at hcode ⊢
  have hfirst : ((d.emit x.name .allocFlag).1.put (.store false d.values)).code <+: whole := by
    split at hcode
    · exact hset.code_isPrefix.trans hcode
    · exact hcode
  rw [pending_emit hd (hcleared.code_isPrefix.trans hfirst)] at hrest
  have hprep := prepares_set s (pending whole (d.emit x.name .allocFlag).1 d.here) (Nat.le_refl d.values)
    (.flag none)
  have hcell : (({ s with rest := pending whole (d.emit x.name .allocFlag).1 d.here } : Machine).set d.values
      (.flag none)).registers.get? d.values = some (.flag none) := get?_set_self _ _ _
  obtain ⟨s₁, hreach₁, hrest₁, hprep₁, hcell₁⟩ := hstore false hmade.sound rfl hfirst rfl hcell
  have hreach : Reaches whole s s₁ := (Reaches.single (step_allocFlag hrest)).trans hreach₁
  have hprepared := hprep.trans hprep₁ (Nat.le_refl _)
  cases hbit : x.initially with
  | false => exact ⟨s₁, hreach, hrest₁, hprepared, hcell₁⟩
  | true =>
    rw [if_pos hbit] at hcode
    obtain ⟨s₂, hreach₂, hrest₂, hprep₂, hcell₂⟩ := hstore true hcleared.sound rfl hcode hrest₁ hcell₁
    exact ⟨s₂, hreach.trans hreach₂, hrest₂, hprepared.trans hprep₂ (Nat.le_refl _), hcell₂⟩

theorem reaches_openFlags (hd : d.Sound) {xs : List FlagSlot} (hcode : (openFlags xs d).1.code <+: whole)
    (hrest : s.rest = pending whole d d.here) :
    ∃ s', Reaches whole s s' ∧ s'.rest = pending whole (openFlags xs d).1 d.here ∧
      Prepares d.values s s' ∧ ∀ {n : String} {c : ValueNo}, lastWrite n (openFlags xs d).2 = some c →
        ∃ bit, lastWrite n (xs.map fun x => (x.name, x.initially)) = some bit ∧
          s'.registers.get? c = some (.flag (some bit)) := by
  induction xs generalizing d s with
  | nil => exact ⟨s, .refl s, hrest, ⟨fun _ _ => rfl, rfl, rfl, rfl⟩, fun h => by cases h⟩
  | cons x xs ih =>
    rw [openFlags_cons] at hcode ⊢
    have hfirst := extends_openFlag hd x
    obtain ⟨s₁, hreach₁, hrest₁, hprep₁, hcell₁⟩ := reaches_openFlag hd x
      ((extends_openFlags hfirst.sound xs).code_isPrefix.trans hcode) hrest
    rw [← here_openFlag d x] at hrest₁
    obtain ⟨s₂, hreach₂, hrest₂, hprep₂, hflags⟩ := ih hfirst.sound hcode hrest₁
    rw [here_openFlag] at hrest₂
    have hlt := values_openFlag d x
    refine ⟨s₂, hreach₁.trans hreach₂, hrest₂, hprep₁.trans hprep₂ (Nat.le_of_lt hlt), fun {n c} hn => ?_⟩
    rw [List.map_cons, lastWrite_cons]
    rw [lastWrite_cons] at hn
    -- a later flag of the same name hides this one, in the code as in the run
    cases hlater : lastWrite n (openFlags xs (openFlag d x)).2 with
    | some c' =>
      rw [hlater, Option.some_or, Option.some.injEq] at hn
      obtain ⟨bit, hbit, hcell⟩ := hflags hlater
      rw [hbit, Option.some_or]
      exact ⟨bit, rfl, hn ▸ hcell⟩
    | none =>
      rw [hlater, Option.none_or] at hn
      obtain ⟨heq, hc⟩ : x.name = n ∧ d.values = c := by
        split at hn
        next heq => exact ⟨heq, Option.some.inj hn⟩
        next => cases hn
      have hnone : lastWrite n (xs.map fun x => (x.name, x.initially)) = none := by
        cases hw : lastWrite n (xs.map fun x => (x.name, x.initially)) with
        | none => rfl
        | some bit =>
          -- a later flag of the name would have a cell
          obtain ⟨y, hy, hpair⟩ := List.mem_map.1 (mem_of_lastWrite hw)
          rw [Prod.mk.injEq] at hpair
          have hname : n ∈ (openFlags xs (openFlag d x)).2.map Prod.fst := by
            rw [map_openFlags]
            exact List.mem_map.2 ⟨y, hy, hpair.1⟩
          obtain ⟨⟨n', c'⟩, hmem, rfl⟩ := List.mem_map.1 hname
          obtain ⟨w, hw⟩ := exists_lastWrite hmem
          rw [hlater] at hw
          cases hw
      rw [hnone, Option.none_or, if_pos heq]
      exact ⟨x.initially, rfl, by rw [← hc, hprep₂.registers _ hlt, hcell₁]⟩

end Draft

end MovePlan
