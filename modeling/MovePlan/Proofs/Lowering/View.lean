import MovePlan.Proofs.Lowering.Draft

set_option autoImplicit false

namespace MovePlan
open Draft Machine

/-- What a run and the machine have in common. -/
structure View where
  flags : FlagValues
  choices : Choices
  /-- The entered blocks that stand for blocks of the function. -/
  blocks : List BlockNo := []
  drops : List Call := []

namespace Layout
variable {l : Layout}

def lists (l : Layout) (b : BlockNo) : Bool := (l.blocks.map Prod.snd).contains b

def dropCall (l : Layout) (x : Drop) : Call := { callee := x.callee, args := [.slot (l.slot x.binding)] }

/-- No two flags share a cell. -/
def Apart (l : Layout) : Prop :=
  ∀ {n n' : String} {c : ValueNo}, lastWrite n l.flags = some c → lastWrite n' l.flags = some c →
    n = n'

def Below (l : Layout) (d : Draft) : Prop := ∀ {b : BlockNo}, l.lists b = true → b < d.blocks

theorem Below.mono {d d' : Draft} (h : l.Below d) (he : d.Extends d') : l.Below d' :=
  fun hb => Nat.lt_of_lt_of_le (h hb) he.blocks

theorem Below.lists_eq_false {d : Draft} (h : l.Below d) {b : BlockNo} (hb : d.blocks ≤ b) :
    l.lists b = false := by
  by_contra hlists
  rw [Bool.not_eq_false] at hlists
  exact absurd (h hlists) (Nat.not_lt.2 hb)

theorem flag_eq {n : String} {c : ValueNo} (h : lastWrite n l.flags = some c) : l.flag n = c := by
  rw [flag, h]
  rfl

theorem slot_eq {n : String} {c : ValueNo} (h : lastWrite n l.slots = some c) : l.slot n = c := by
  rw [slot, h]
  rfl

end Layout

def Drop.fires (flags : FlagValues) (x : Drop) : Bool :=
  match x.guard with
  | none => true
  | some flag => (flags.get? flag).getD false

structure Drop.Fits (l : Layout) (x : Drop) : Prop where
  slot : ∃ c, lastWrite x.binding l.slots = some c
  flag : ∀ {n : String}, x.guard = some n → ∃ c, lastWrite n l.flags = some c

def Step.Fits (l : Layout) : Step → Prop
  | .store flag _ => ∃ c, lastWrite flag l.flags = some c
  | .mark marker _ => marker ≠ "movec.choose"

namespace View

def afterStep (v : View) : Step → View
  | .store flag bit => { v with flags := v.flags.put flag bit }
  | .mark _ _ => v

def afterDrops (l : Layout) (v : View) (xs : List Drop) : View :=
  { v with drops := v.drops ++ (xs.filter (Drop.fires v.flags)).map l.dropCall }

def afterEnter (v : View) (b : BlockNo) : View := { v with blocks := v.blocks ++ [b] }

def afterChoice (v : View) (id : BlockId) (edges : Nat) : View :=
  if 2 ≤ edges then { v with choices := v.choices.visit id } else v

end View

/-- The machine agrees with a view. The cells of slots and flags are the values below `base`. -/
structure Shows (l : Layout) (base : ValueNo) (s : Machine) (v : View) : Prop where
  slot : ∀ {n : String} {c : ValueNo}, lastWrite n l.slots = some c →
    c < base ∧ s.registers.get? c = some .slot
  flag : ∀ {n : String} {c : ValueNo}, lastWrite n l.flags = some c →
    c < base ∧ ∃ bit, v.flags.get? n = some bit ∧ s.registers.get? c = some (.flag (some bit))
  choices : s.choices = v.choices
  blocks : s.blocks.filter l.lists = v.blocks
  drops : s.calls.filter Call.onSlot = v.drops

section
variable {whole : Code} {l : Layout} {base : ValueNo} {s : Machine} {v v' v'' : View} {d d' d'' : Draft}

namespace Shows

theorem set_rest (h : Shows l base s v) (rest : List (ValueNo × Instr)) :
    Shows l base { s with rest := rest } v :=
  ⟨h.slot, h.flag, h.choices, h.blocks, h.drops⟩

theorem visit (h : Shows l base s v) (choices : Choices) :
    Shows l base { s with choices := choices } { v with choices := choices } :=
  ⟨h.slot, h.flag, rfl, h.blocks, h.drops⟩

theorem set_value (h : Shows l base s v) {c : ValueNo} (hc : base ≤ c) (x : Register) :
    Shows l base (s.set c x) v := by
  have hkeep : ∀ {k : ValueNo}, k < base → (s.set c x).registers.get? k = s.registers.get? k := by
    intro k hk
    have hne : k ≠ c := Nat.ne_of_lt (Nat.lt_of_lt_of_le hk hc)
    exact Machine.get?_set_of_ne _ hne x
  refine ⟨fun hn => ?_, fun hn => ?_, h.choices, h.blocks, h.drops⟩
  · obtain ⟨hlt, hslot⟩ := h.slot hn
    exact ⟨hlt, by rw [hkeep hlt, hslot]⟩
  · obtain ⟨hlt, bit, hbit, hcell⟩ := h.flag hn
    exact ⟨hlt, bit, hbit, by rw [hkeep hlt, hcell]⟩

theorem store (h : Shows l base s v) (hapart : l.Apart) {n : String} {c : ValueNo}
    (hn : lastWrite n l.flags = some c) (bit : Bool) :
    Shows l base (s.set c (.flag (some bit))) { v with flags := v.flags.put n bit } := by
  obtain ⟨_, old, _, hcell⟩ := h.flag hn
  have hget : ∀ k, (s.set c (.flag (some bit))).registers.get? k =
      if k = c then some (.flag (some bit)) else s.registers.get? k :=
    fun k => OrderedMap.get?_put _ _ _ _
  refine ⟨fun {n' c'} hn' => ?_, fun {n' c'} hn' => ?_, h.choices, h.blocks, h.drops⟩
  · obtain ⟨hlt, hslot⟩ := h.slot hn'
    have hne : c' ≠ c := by
      rintro rfl
      rw [hslot] at hcell
      cases hcell
    exact ⟨hlt, by rw [hget, if_neg hne, hslot]⟩
  · obtain ⟨hlt, bit', hbit', hcell'⟩ := h.flag hn'
    refine ⟨hlt, ?_⟩
    rw [hget]
    change ∃ b, (v.flags.put n bit).get? n' = some b ∧ _
    rw [OrderedMap.get?_put]
    by_cases heq : n' = n
    · subst heq
      rw [hn, Option.some.injEq] at hn'
      rw [if_pos rfl, if_pos hn'.symm]
      exact ⟨bit, rfl, rfl⟩
    · have hne : c' ≠ c := by
        rintro rfl
        exact heq (hapart hn' hn)
      rw [if_neg heq, if_neg hne]
      exact ⟨bit', hbit', hcell'⟩

theorem record_number (h : Shows l base s v) (callee : String) (n : Int) :
    Shows l base (s.record callee [.number n]) v := by
  refine ⟨h.slot, h.flag, h.choices, h.blocks, ?_⟩
  change (s.calls ++ [_]).filter Call.onSlot = v.drops
  rw [List.filter_append, h.drops]
  exact List.append_nil _

theorem record_slot (h : Shows l base s v) (callee : String) (c : ValueNo) :
    Shows l base (s.record callee [.slot c])
      { v with drops := v.drops ++ [{ callee := callee, args := [.slot c] }] } := by
  refine ⟨h.slot, h.flag, h.choices, h.blocks, ?_⟩
  change (s.calls ++ [_]).filter Call.onSlot = v.drops ++ _
  rw [List.filter_append, h.drops]
  rfl

theorem enter (h : Shows l base s v) {b : BlockNo} (hb : l.lists b = true) :
    Shows l base (s.enter whole b) (v.afterEnter b) := by
  refine ⟨h.slot, h.flag, h.choices, ?_, h.drops⟩
  change (s.blocks ++ [b]).filter l.lists = v.blocks ++ [b]
  rw [List.filter_append, h.blocks, List.filter_cons, if_pos hb, List.filter_nil]

theorem enter_other (h : Shows l base s v) {b : BlockNo} (hb : l.lists b = false) :
    Shows l base (s.enter whole b) v := by
  refine ⟨h.slot, h.flag, h.choices, ?_, h.drops⟩
  change (s.blocks ++ [b]).filter l.lists = v.blocks
  rw [List.filter_append, h.blocks, List.filter_cons, hb, List.filter_nil]
  exact List.append_nil _

end Shows

/-- From where the first draft stands the machine comes to where the second one does. -/
def Advances (whole : Code) (l : Layout) (base : ValueNo) (d d' : Draft) (v v' : View) : Prop :=
  ∀ s : Machine, s.rest = pending whole d d.here → Shows l base s v →
    ∃ s', Reaches whole s s' ∧ s'.rest = pending whole d' d'.here ∧ Shows l base s' v'

namespace Advances

theorem refl : Advances whole l base d d v v :=
  fun s hrest hshows => ⟨s, .refl s, hrest, hshows⟩

theorem trans (h : Advances whole l base d d' v v') (h' : Advances whole l base d' d'' v' v'') :
    Advances whole l base d d'' v v'' := by
  intro s hrest hshows
  obtain ⟨s', hreach, hrest', hshows'⟩ := h s hrest hshows
  obtain ⟨s'', hreach', hrest'', hshows''⟩ := h' s' hrest' hshows'
  exact ⟨s'', hreach.trans hreach', hrest'', hshows''⟩

theorem single {i : Instr} (next : Machine → Machine)
    (hpending : pending whole d d.here = (d.values, i) :: pending whole d' d'.here)
    (hstep : ∀ s : Machine, s.rest = (d.values, i) :: pending whole d' d'.here → Shows l base s v →
      s.step whole = some (next { s with rest := pending whole d' d'.here }) ∧
        Shows l base (next { s with rest := pending whole d' d'.here }) v')
    (hnext : ∀ s, (next s).rest = s.rest) : Advances whole l base d d' v v' := by
  intro s hrest hshows
  rw [hpending] at hrest
  obtain ⟨hs, hshows'⟩ := hstep s hrest hshows
  exact ⟨_, .single hs, hnext _, hshows'⟩

end Advances

theorem advances_step (hd : d.Sound) (hapart : l.Apart) {x : Step} (hx : x.Fits l)
    (hcode : (step l d x).code <+: whole) :
    Advances whole l base d (step l d x) v (v.afterStep x) := by
  cases x with
  | store flag bit =>
    obtain ⟨c, hc⟩ := hx
    have hpending := pending_emit hd hcode
    rw [Layout.flag_eq hc] at hpending
    have heq : step l d (.store flag bit) = (d.emit "" (.store bit c)).1 := by
      rw [← Layout.flag_eq hc]
      rfl
    rw [heq]
    refine .single (Machine.set c (.flag (some bit))) hpending (fun s hrest hshows => ?_)
      fun s => rfl
    obtain ⟨_, old, _, hcell⟩ := hshows.flag hc
    exact ⟨step_store hrest hcell, (hshows.set_rest _).store hapart hc bit⟩
  | mark marker site =>
    obtain ⟨result, hpending⟩ := pending_call hd hcode
    have hhere : (step l d (.mark marker site)).here = d.here := here_call d _ _ _
    refine .single (Machine.record marker [.number site]) (by rw [hhere]; exact hpending)
      (fun s hrest hshows => ?_) fun s => rfl
    exact ⟨step_call hrest rfl fun _ _ => hx, (hshows.set_rest _).record_number marker site⟩

theorem advances_steps (hd : d.Sound) (hapart : l.Apart) {xs : List Step} (hxs : ∀ x ∈ xs, x.Fits l)
    (hcode : (xs.foldl (step l) d).code <+: whole) :
    Advances whole l base d (xs.foldl (step l) d) v (xs.foldl View.afterStep v) := by
  induction xs generalizing d v with
  | nil => exact .refl
  | cons x xs ih =>
    have hstep : d.Extends (step l d x) := extends_step hd x
    have hrest : (step l d x).Extends (xs.foldl (step l) (step l d x)) := extends_steps hstep.sound xs
    have hfirst : Advances whole l base d (step l d x) v (v.afterStep x) :=
      advances_step hd hapart (hxs x List.mem_cons_self) (hrest.code_isPrefix.trans hcode)
    exact hfirst.trans (ih hstep.sound (fun y hy => hxs y (List.mem_cons_of_mem _ hy)) hcode)

theorem code_guardedBlocks_ne (hd : d.Sound) (x : Drop) (flag : String) {b : BlockNo}
    (hb : d.blocks ≤ b) : ∀ y ∈ (guardedBlocks l d x flag).code, y.2.1 ≠ b := by
  have hne : ∀ y ∈ d.code, y.2.1 ≠ b :=
    fun y hy => Nat.ne_of_lt (Nat.lt_of_lt_of_le (hd.blocks y hy) hb)
  have hhere : d.here ≠ b := Nat.ne_of_lt (Nat.lt_of_lt_of_le hd.here hb)
  obtain ⟨globals, hglobals⟩ := declareDrop_eq d x
  unfold guardedBlocks
  rw [hglobals, code_newBlock, code_newBlock]
  exact code_emit_ne (extends_globals hd globals).sound hne hhere

theorem code_guardedBody_ne (hd : d.Sound) (x : Drop) (flag : String) {b : BlockNo}
    (hb : d.blocks ≤ b) : ∀ y ∈ (guardedBody l d x flag).code, y.2.1 ≠ b := by
  have hhere : (guardedBlocks l d x flag).here ≠ b := by
    rw [here_guardedBlocks]
    exact Nat.ne_of_lt (Nat.lt_of_lt_of_le hd.here hb)
  exact code_emit_ne (extends_guardedBlocks hd x flag).sound (code_guardedBlocks_ne hd x flag hb) hhere

theorem reaches_guard (hd : d.Sound) (hbase : base ≤ d.values) (hbelow : l.Below d) {x : Drop}
    {flag : String} {c : ValueNo} (hc : lastWrite flag l.flags = some c) {bit : Bool}
    (hbit : v.flags.get? flag = some bit) (hcode : (guardedBody l d x flag).code <+: whole)
    (hrest : s.rest = pending whole d d.here) (hshows : Shows l base s v) :
    ∃ s', Reaches whole s s' ∧
      s'.rest = whole.instrsAt (if bit then d.blocks else d.blocks + 1) ∧ Shows l base s' v := by
  obtain ⟨globals, hglobals⟩ := declareDrop_eq d x
  have hblocks := extends_guardedBlocks (l := l) hd x flag
  have hbranch : (guardedBlocks l d x flag).code <+: whole :=
    (extends_put hblocks.sound _).code_isPrefix.trans hcode
  have hglobal := extends_globals hd globals
  have hload : pending whole d d.here =
      (d.values, .load c) :: pending whole (guardedBlocks l d x flag) d.here := by
    unfold guardedBlocks at hbranch ⊢
    rw [hglobals, Layout.flag_eq hc] at hbranch ⊢
    rw [code_newBlock, code_newBlock] at hbranch
    exact pending_emit hglobal.sound hbranch
  have hif : pending whole (guardedBlocks l d x flag) d.here = ((guardedBlocks l d x flag).values,
      .branchIf d.values d.blocks (d.blocks + 1)) :: pending whole (guardedBody l d x flag) d.here := by
    have h := pending_emit hblocks.sound hcode
    rw [here_guardedBlocks] at h
    exact h
  obtain ⟨_, bit', hbit', hcell⟩ := hshows.flag hc
  rw [hbit, Option.some.injEq] at hbit'
  subst hbit'
  -- the loaded bit is no cell, so the view stays
  rw [hload] at hrest
  have hloaded := (hshows.set_rest (pending whole (guardedBlocks l d x flag) d.here)).set_value hbase
    (.bit bit)
  have hregister : (({ s with rest := pending whole (guardedBlocks l d x flag) d.here } : Machine).set
      d.values (.bit bit)).registers.get? d.values = some (.bit bit) := Machine.get?_set_self _ _ _
  have hother : l.lists (if bit then d.blocks else d.blocks + 1) = false := by
    apply hbelow.lists_eq_false
    split <;> omega
  have hload : Reaches whole s _ := .single (step_load hrest hcell)
  refine ⟨_, hload.trans (.single (step_branchIf hif hregister)), rfl, ?_⟩
  exact (hloaded.set_rest _).enter_other hother

theorem advances_dropCall (hd : d.Sound) {x : Drop} (hx : x.Fits l)
    (hcode : (d.dropCall l x).code <+: whole) :
    Advances whole l base d (d.dropCall l x) v { v with drops := v.drops ++ [l.dropCall x] } := by
  obtain ⟨c, hc⟩ := hx.slot
  obtain ⟨result, hpending⟩ := pending_call hd hcode
  have hhere : (d.dropCall l x).here = d.here := here_call d _ _ _
  refine .single (Machine.record x.callee [.slot (l.slot x.binding)]) (by rw [hhere]; exact hpending)
    (fun s hrest hshows => ?_) fun s => rfl
  have hslot : [Operand.slot (l.slot x.binding)].all s.hasOperand = true := by
    rw [Layout.slot_eq hc]
    simp [hasOperand, (hshows.slot hc).2]
  exact ⟨step_call hrest hslot fun _ h => by simp at h, (hshows.set_rest _).record_slot _ _⟩

theorem advances_drop (hd : d.Sound) (hbase : base ≤ d.values) (hbelow : l.Below d) {x : Drop}
    (hx : x.Fits l) (hcode : (d.drop l x).code <+: whole) :
    Advances whole l base d (d.drop l x) v (v.afterDrops l [x]) := by
  cases hguard : x.guard with
  | none =>
    have hfires : x.fires v.flags = true := by rw [Drop.fires, hguard]
    rw [drop_of_no_guard hguard] at hcode ⊢
    rw [View.afterDrops, List.filter_cons, if_pos hfires]
    exact advances_dropCall hd hx hcode
  | some flag =>
    rw [drop_of_guard hguard] at hcode ⊢
    intro s hrest hshows
    obtain ⟨c, hc⟩ := hx.flag hguard
    obtain ⟨_, bit, hbit, _⟩ := hshows.flag hc
    have hfires : x.fires v.flags = bit := by simp only [Drop.fires, hguard, hbit, Option.getD_some]
    have hbody := extends_guardedBody (l := l) hd x flag
    have hcall := extends_dropCall (l := l) hbody.sound x
    have hput := extends_put hcall.sound (.branch (d.blocks + 1))
    -- nothing was put into the block behind the drop yet, whatever happened in between
    have hlater : ∀ y ∈ (((guardedBody l d x flag).dropCall l x).put (.branch (d.blocks + 1))).code,
        y.2.1 ≠ d.blocks + 1 := by
      have hne : d.blocks ≠ d.blocks + 1 := by omega
      have hbodyNe := code_guardedBody_ne (l := l) hd x flag (Nat.le_succ d.blocks)
      exact code_emit_ne hcall.sound (code_call_ne hbody.sound hbodyNe hne) (by
        rw [dropCall, here_call]
        exact hne)
    have hend : pending whole ((((guardedBody l d x flag).dropCall l x).put (.branch (d.blocks + 1))).goTo
        (d.blocks + 1)) (d.blocks + 1) = whole.instrsAt (d.blocks + 1) :=
      pending_eq_instrsAt hput.sound hcode hlater
    have hin : (guardedBody l d x flag).code <+: whole :=
      (hcall.code_isPrefix.trans hput.code_isPrefix).trans hcode
    obtain ⟨s₁, hreach, hrest₁, hshows₁⟩ := reaches_guard hd hbase hbelow hc hbit hin hrest hshows
    rw [View.afterDrops, List.filter_cons, hfires]
    -- both arms meet at the block behind the drop
    cases bit with
    | false =>
      refine ⟨s₁, hreach, hrest₁.trans hend.symm, ?_⟩
      rw [if_neg (by simp), List.filter_nil, List.map_nil, List.append_nil]
      exact hshows₁
    | true =>
      have hstart : pending whole (guardedBody l d x flag) d.blocks = whole.instrsAt d.blocks :=
        pending_eq_instrsAt hbody.sound hin (code_guardedBody_ne hd x flag (Nat.le_refl _))
      obtain ⟨s₂, hreach₂, hrest₂, hshows₂⟩ := advances_dropCall hbody.sound hx
        (hput.code_isPrefix.trans hcode) s₁ (hrest₁.trans hstart.symm) hshows₁
      rw [pending_emit hcall.sound hcode] at hrest₂
      have hother : l.lists (d.blocks + 1) = false := hbelow.lists_eq_false (Nat.le_succ _)
      refine ⟨_, (hreach.trans hreach₂).trans (.single (step_branch hrest₂)), hend.symm, ?_⟩
      exact (hshows₂.set_rest _).enter_other hother

theorem View.afterSteps_eq (v : View) (xs : List Step) :
    xs.foldl View.afterStep v = { v with flags := (xs.foldl View.afterStep v).flags } := by
  induction xs generalizing v with
  | nil => rfl
  | cons x xs ih =>
    rw [List.foldl_cons, ih]
    cases x <;> rfl

theorem View.afterDrops_cons (v : View) (x : Drop) (xs : List Drop) :
    v.afterDrops l (x :: xs) = (v.afterDrops l [x]).afterDrops l xs := by
  have hsplit : (x :: xs).filter (Drop.fires v.flags) =
      [x].filter (Drop.fires v.flags) ++ xs.filter (Drop.fires v.flags) := by
    rw [← List.filter_append, List.singleton_append]
  unfold View.afterDrops
  rw [hsplit, List.map_append, List.append_assoc]

theorem View.afterDrops_nil (v : View) : v.afterDrops l [] = v := by
  unfold View.afterDrops
  rw [List.filter_nil, List.map_nil, List.append_nil]

theorem advances_drops (hd : d.Sound) (hbase : base ≤ d.values) (hbelow : l.Below d) {xs : List Drop}
    (hxs : ∀ x ∈ xs, x.Fits l) (hcode : (xs.foldl (Draft.drop l) d).code <+: whole) :
    Advances whole l base d (xs.foldl (Draft.drop l) d) v (v.afterDrops l xs) := by
  induction xs generalizing d v with
  | nil =>
    rw [View.afterDrops_nil]
    exact .refl
  | cons x xs ih =>
    have hdrop : d.Extends (d.drop l x) := extends_drop hd x
    have hrest : (d.drop l x).Extends (xs.foldl (Draft.drop l) (d.drop l x)) :=
      extends_drops hdrop.sound xs
    have hfirst : Advances whole l base d (d.drop l x) v (v.afterDrops l [x]) :=
      advances_drop hd hbase hbelow (hxs x List.mem_cons_self) (hrest.code_isPrefix.trans hcode)
    rw [View.afterDrops_cons]
    exact hfirst.trans (ih hdrop.sound (Nat.le_trans hbase (hdrop.values_le hd)) (hbelow.mono hdrop)
      (fun y hy => hxs y (List.mem_cons_of_mem _ hy)) hcode)

end
end MovePlan
