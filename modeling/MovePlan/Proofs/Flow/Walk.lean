import Mathlib.Data.List.Induction
import Mathlib.Data.List.Sort
import Mathlib.Logic.Relation
import MovePlan.Flow.Function

set_option autoImplicit false

/-!
# Walks and what happens on them

A walk is a list of edges, each of which starts at the block that the one before comes to. Its trace
lists the blocks that it comes into and the sites that it passes there. A run of a function is a walk
from its entry.
-/
namespace MovePlan

theorem insertBy_eq_orderedInsert {α : Type} (r : α → α → Prop) [DecidableRel r] (x : α) (xs : List α) :
    insertBy (fun a b => decide (r a b)) x xs = xs.orderedInsert r x := by
  induction xs with
  | nil => rfl
  | cons y ys ih => by_cases h : r x y <;> simp [insertBy, h, ih]

theorem sortBy_eq_insertionSort {α : Type} (r : α → α → Prop) [DecidableRel r] (xs : List α) :
    sortBy (fun a b => decide (r a b)) xs = xs.insertionSort r := by
  induction xs with
  | nil => rfl
  | cons x xs ih =>
    rw [List.insertionSort_cons, ← ih, ← insertBy_eq_orderedInsert]
    rfl

/-- What happens on a walk: it comes into a block, or it passes a site. -/
inductive TraceEvent
  | enter (block : BlockId)
  | pass (site : Site)
deriving DecidableEq

namespace TraceEvent

/-- The event passes a site of some kind. -/
def At (P : Site → Prop) : TraceEvent → Prop
  | enter _ => False
  | pass s => P s

instance decidableAt (P : Site → Prop) [DecidablePred P] : DecidablePred (At P)
  | enter _ => inferInstanceAs (Decidable False)
  | pass s => inferInstanceAs (Decidable (P s))

@[simp] theorem at_enter {P : Site → Prop} {id : BlockId} : At P (enter id) ↔ False := Iff.rfl

@[simp] theorem at_pass {P : Site → Prop} {s : Site} : At P (pass s) ↔ P s := Iff.rfl

end TraceEvent

/-- Something of the first kind has happened, and nothing of the second kind after it. -/
def Since (p q : TraceEvent → Prop) (events : List TraceEvent) : Prop :=
  ∃ before x after, events = before ++ x :: after ∧ p x ∧ ∀ y ∈ after, ¬ q y

section Since
variable {p q : TraceEvent → Prop}

theorem not_since_nil : ¬ Since p q [] := by
  rintro ⟨before, x, after, h, _⟩
  simp at h

theorem since_snoc {events : List TraceEvent} {x : TraceEvent} :
    Since p q (events ++ [x]) ↔ p x ∨ (Since p q events ∧ ¬ q x) := by
  constructor
  · rintro ⟨before, y, after, h, hp, hq⟩
    rcases List.eq_nil_or_concat after with rfl | ⟨after, z, rfl⟩
    · obtain ⟨_, h⟩ := List.append_inj' h rfl
      rw [List.cons.injEq] at h
      exact .inl (h.1 ▸ hp)
    · rw [List.concat_eq_append, ← List.cons_append, ← List.append_assoc] at h
      obtain ⟨hevents, h⟩ := List.append_inj' h rfl
      rw [List.cons.injEq] at h
      refine .inr ⟨⟨before, y, after, hevents, hp, fun z hz => hq z (by simp [hz])⟩, ?_⟩
      rw [h.1]
      exact hq z (by simp)
  · rintro (hp | ⟨⟨before, y, after, rfl, hp, hq⟩, hx⟩)
    · exact ⟨events, x, [], rfl, hp, by simp⟩
    · refine ⟨before, y, after ++ [x], by simp, hp, fun z hz => ?_⟩
      rcases List.mem_append.1 hz with hz | hz
      · exact hq z hz
      · rwa [List.mem_singleton.1 hz]

theorem since_cons {events : List TraceEvent} {x : TraceEvent} :
    Since p q (x :: events) ↔ Since p q events ∨ (p x ∧ ∀ y ∈ events, ¬ q y) := by
  constructor
  · rintro ⟨before, y, after, h, hp, hq⟩
    rcases before with _ | ⟨z, before⟩
    · rw [List.nil_append, List.cons.injEq] at h
      obtain ⟨rfl, rfl⟩ := h
      exact .inr ⟨hp, hq⟩
    · rw [List.cons_append, List.cons.injEq] at h
      exact .inl ⟨before, y, after, h.2, hp, hq⟩
  · rintro (⟨before, y, after, rfl, hp, hq⟩ | ⟨hp, hq⟩)
    · exact ⟨x :: before, y, after, rfl, hp, hq⟩
    · exact ⟨[], x, events, rfl, hp, hq⟩

theorem not_since_of_after {before after : List TraceEvent} {x : TraceEvent} (hp : ¬ p x) (hq : q x)
    (hafter : ∀ y ∈ after, ¬ p y) : ¬ Since p q (before ++ x :: after) := by
  induction after using List.reverseRecOn with
  | nil =>
    rw [since_snoc]
    exact fun h => h.elim hp fun h => h.2 hq
  | append_singleton after y ih =>
    rw [← List.cons_append, ← List.append_assoc, since_snoc]
    have hold := ih fun z hz => hafter z (by simp [hz])
    exact fun h => h.elim (hafter y (by simp)) fun h => hold h.1

instance decidableSince (p q : TraceEvent → Prop) [DecidablePred p] [DecidablePred q] :
    DecidablePred (Since p q)
  | [] => .isFalse not_since_nil
  | x :: events =>
    have := decidableSince p q events
    decidable_of_iff (Since p q events ∨ (p x ∧ ∀ y ∈ events, ¬ q y)) since_cons.symm

end Since

namespace Function

def Walk (f : Function) : BlockId → List Edge → BlockId → Prop
  | a, [], b => a = b
  | a, e :: es, b => e ∈ f.edgesAt a ∧ Walk f e.dst es b

instance decidableWalk (f : Function) : (a : BlockId) → (es : List Edge) → (b : BlockId) →
    Decidable (f.Walk a es b)
  | a, [], b => inferInstanceAs (Decidable (a = b))
  | a, e :: es, b =>
    have := decidableWalk f e.dst es b
    inferInstanceAs (Decidable (e ∈ f.edgesAt a ∧ f.Walk e.dst es b))

def eventsAt (f : Function) (id : BlockId) : List TraceEvent :=
  .enter id :: (f.sitesAt id).map .pass

def trace (f : Function) (a : BlockId) (es : List Edge) : List TraceEvent :=
  f.eventsAt a ++ es.flatMap fun e => f.eventsAt e.dst

variable {f : Function}

theorem hasBlock_iff {id : BlockId} : f.hasBlock id = true ↔ ∃ blk, f.block? id = some blk := by
  simp [hasBlock, OrderedMap.contains, block?, Option.isSome_iff_exists]

theorem sitesAt_eq {id : BlockId} {blk : Block} (h : f.block? id = some blk) :
    f.sitesAt id = blk.sites := by
  simp [sitesAt, h]

theorem edgesAt_eq {id : BlockId} {blk : Block} (h : f.block? id = some blk) :
    f.edgesAt id = blk.edges := by
  simp [edgesAt, h]

theorem hasBlock_of_mem_edgesAt {id : BlockId} {e : Edge} (h : e ∈ f.edgesAt id) :
    f.hasBlock id = true := by
  rw [hasBlock_iff]
  cases hb : f.block? id with
  | none => simp [edgesAt, hb] at h
  | some blk => exact ⟨blk, rfl⟩

theorem hasBlock_of_mem_sitesAt {id : BlockId} {s : Site} (h : s ∈ f.sitesAt id) :
    f.hasBlock id = true := by
  rw [hasBlock_iff]
  cases hb : f.block? id with
  | none => simp [sitesAt, hb] at h
  | some blk => exact ⟨blk, rfl⟩

theorem mem_successors {a b : BlockId} : b ∈ f.successors a ↔ ∃ e ∈ f.edgesAt a, e.dst = b := by
  simp [successors]

theorem mem_sortedBlocks {id : BlockId} {blk : Block} :
    (id, blk) ∈ f.sortedBlocks ↔ f.block? id = some blk := by
  rw [sortedBlocks, mem_sortBy, block?, OrderedMap.get?_eq_some_iff]

theorem mem_sortedIds {id : BlockId} : id ∈ f.sortedIds ↔ f.hasBlock id = true := by
  simp [sortedIds, mem_sortedBlocks, hasBlock_iff]

theorem nodup_sortedIds : f.sortedIds.Nodup := by
  have hperm := (sortBy_perm (fun a b : BlockId × Block => decide (a.1 ≤ b.1)) f.blocks.entries).map
    Prod.fst
  exact hperm.nodup_iff.2 f.blocks.nodup

theorem pairwise_sortedBlocks : f.sortedBlocks.Pairwise fun x y => x.1 < y.1 := by
  have htotal : Std.Total fun x y : BlockId × Block => x.1 ≤ y.1 := ⟨fun x y => Int.le_total x.1 y.1⟩
  have htrans : IsTrans (BlockId × Block) fun x y => x.1 ≤ y.1 := ⟨fun x y z => Int.le_trans⟩
  have hle : f.sortedBlocks.Pairwise fun x y => x.1 ≤ y.1 := by
    rw [sortedBlocks, sortBy_eq_insertionSort fun x y : BlockId × Block => x.1 ≤ y.1]
    exact List.pairwise_insertionSort _ _
  have hne : f.sortedBlocks.Pairwise fun x y => x.1 ≠ y.1 := List.pairwise_map.1 nodup_sortedIds
  exact hle.imp₂ (fun x y => lt_of_le_of_ne) hne

theorem mem_allSites {s : Site} : s ∈ f.allSites ↔ ∃ id, s ∈ f.sitesAt id := by
  simp only [allSites, List.mem_flatMap, Prod.exists, mem_sortedBlocks]
  constructor
  · rintro ⟨id, blk, hb, hs⟩
    exact ⟨id, by rwa [sitesAt_eq hb]⟩
  · rintro ⟨id, hs⟩
    obtain ⟨blk, hb⟩ := hasBlock_iff.1 (hasBlock_of_mem_sitesAt hs)
    exact ⟨id, blk, hb, by rwa [sitesAt_eq hb] at hs⟩

theorem mem_sitesOf {name : String} {s : Site} :
    s ∈ f.sitesOf name ↔ s ∈ f.allSites ∧ s.binding = some name := by
  simp [sitesOf]

@[simp] theorem walk_nil {a b : BlockId} : f.Walk a [] b ↔ a = b := Iff.rfl

@[simp] theorem walk_cons {a b : BlockId} {e : Edge} {es : List Edge} :
    f.Walk a (e :: es) b ↔ e ∈ f.edgesAt a ∧ f.Walk e.dst es b := Iff.rfl

theorem walk_append {a c : BlockId} {es es' : List Edge} :
    f.Walk a (es ++ es') c ↔ ∃ b, f.Walk a es b ∧ f.Walk b es' c := by
  induction es generalizing a with
  | nil => simp
  | cons e es ih => simp [ih, and_assoc]

theorem walk_snoc {a b : BlockId} {e : Edge} {es : List Edge} :
    f.Walk a (es ++ [e]) b ↔ ∃ c, f.Walk a es c ∧ e ∈ f.edgesAt c ∧ e.dst = b := by
  simp [walk_append]

def Leads (f : Function) (a b : BlockId) : Prop := ∃ es, f.Walk a es b

theorem leads_iff {a b : BlockId} :
    f.Leads a b ↔ Relation.ReflTransGen (fun x y => y ∈ f.successors x) a b := by
  constructor
  · rintro ⟨es, h⟩
    induction es generalizing a with
    | nil => rw [walk_nil] at h; rw [h]
    | cons e es ih => exact .head (mem_successors.2 ⟨e, h.1, rfl⟩) (ih h.2)
  · intro h
    induction h using Relation.ReflTransGen.head_induction_on with
    | refl => exact ⟨[], rfl⟩
    | head hs _ ih =>
      obtain ⟨e, he, rfl⟩ := mem_successors.1 hs
      obtain ⟨es, h⟩ := ih
      exact ⟨e :: es, he, h⟩

theorem Leads.refl (a : BlockId) : f.Leads a a := ⟨[], rfl⟩

theorem Leads.trans {a b c : BlockId} (h : f.Leads a b) (h' : f.Leads b c) : f.Leads a c := by
  obtain ⟨es, h⟩ := h
  obtain ⟨es', h'⟩ := h'
  exact ⟨es ++ es', walk_append.2 ⟨b, h, h'⟩⟩

theorem leads_of_mem {a : BlockId} {e : Edge} (h : e ∈ f.edgesAt a) : f.Leads a e.dst :=
  ⟨[e], h, rfl⟩

theorem trace_nil (a : BlockId) : f.trace a [] = f.eventsAt a := by simp [trace]

theorem trace_cons (a : BlockId) (e : Edge) (es : List Edge) :
    f.trace a (e :: es) = f.eventsAt a ++ f.trace e.dst es := by
  simp [trace]

theorem trace_append (a : BlockId) (es es' : List Edge) :
    f.trace a (es ++ es') = f.trace a es ++ es'.flatMap fun e => f.eventsAt e.dst := by
  simp [trace]

theorem trace_snoc (a : BlockId) (es : List Edge) (e : Edge) :
    f.trace a (es ++ [e]) = f.trace a es ++ f.eventsAt e.dst := by
  simp [trace_append]

theorem trace_append_cons (a : BlockId) (es es' : List Edge) (e : Edge) :
    f.trace a (es ++ e :: es') = f.trace a es ++ f.trace e.dst es' := by
  rw [trace_append, List.flatMap_cons]
  rfl

theorem mem_eventsAt_pass {id : BlockId} {s : Site} :
    TraceEvent.pass s ∈ f.eventsAt id ↔ s ∈ f.sitesAt id := by
  simp [eventsAt]

theorem mem_eventsAt_enter {id c : BlockId} : TraceEvent.enter c ∈ f.eventsAt id ↔ c = id := by
  simp [eventsAt]

theorem enter_mem_trace {a c : BlockId} {es : List Edge} :
    TraceEvent.enter c ∈ f.trace a es ↔ c = a ∨ ∃ e ∈ es, e.dst = c := by
  simp [trace, mem_eventsAt_enter, eq_comm]

theorem trace_split {a b : BlockId} {es : List Edge} {before after : List TraceEvent} {x : TraceEvent}
    (hw : f.Walk a es b) (ht : f.trace a es = before ++ x :: after) :
    ∃ es₁ es₂ c pre post, es = es₁ ++ es₂ ∧ f.Walk a es₁ c ∧ f.Walk c es₂ b ∧
      f.eventsAt c = pre ++ x :: post ∧
      f.trace a es₁ = before ++ x :: post ∧
      after = post ++ es₂.flatMap fun e => f.eventsAt e.dst := by
  -- the last block is split off: the event stands there, or the shorter walk has it
  induction es using List.reverseRecOn generalizing b after with
  | nil =>
    rw [trace_nil] at ht
    exact ⟨[], [], a, before, after, rfl, rfl, hw, ht, by rw [trace_nil, ht], by simp⟩
  | append_singleton es e ih =>
    obtain ⟨c, hes, he, rfl⟩ := walk_snoc.1 hw
    rw [trace_snoc] at ht
    rcases List.append_eq_append_iff.1 ht with ⟨mid, hbefore, hevents⟩ | ⟨mid, htrace, hafter⟩
    · exact ⟨es ++ [e], [], e.dst, mid, after, by simp, hw, rfl, hevents,
        by rw [trace_snoc, hevents, hbefore, List.append_assoc], by simp⟩
    · cases mid with
      | nil =>
        rw [List.nil_append] at hafter
        rw [List.append_nil] at htrace
        exact ⟨es ++ [e], [], e.dst, [], after, by simp, hw, rfl, hafter.symm,
          by rw [trace_snoc, ← hafter, htrace], by simp⟩
      | cons y mid =>
        rw [List.cons_append, List.cons.injEq] at hafter
        obtain ⟨rfl, rfl⟩ := hafter
        obtain ⟨es₁, es₂, k, pre, post, rfl, h₁, h₂, hev, htr, rfl⟩ := ih hes htrace
        exact ⟨es₁, es₂ ++ [e], k, pre, post, by simp, h₁, walk_snoc.2 ⟨c, h₂, he, rfl⟩, hev, htr,
          by simp⟩

theorem eventsAt_split {c : BlockId} {s : Site} {pre post : List TraceEvent}
    (h : f.eventsAt c = pre ++ .pass s :: post) :
    ∃ sites sites', f.sitesAt c = sites ++ s :: sites' ∧ pre = .enter c :: sites.map .pass ∧
      post = sites'.map .pass := by
  rcases pre with _ | ⟨x, pre⟩
  · simp [eventsAt] at h
  · simp only [eventsAt, List.cons_append, List.cons.injEq] at h
    obtain ⟨hx, hsites⟩ := h
    obtain ⟨sites, rest, hsplit, hpre, hrest⟩ := List.map_eq_append_iff.1 hsites
    obtain ⟨t, sites', rfl, ht, hpost⟩ := List.map_eq_cons_iff.1 hrest
    rw [TraceEvent.pass.injEq] at ht
    exact ⟨sites, sites', by rw [hsplit, ht], by rw [hx, hpre], hpost.symm⟩

def approach (f : Function) (a : BlockId) (es : List Edge) : List TraceEvent :=
  if es = [] then [] else f.trace a es.dropLast

@[simp] theorem approach_nil (a : BlockId) : f.approach a [] = [] := rfl

@[simp] theorem approach_snoc (a : BlockId) (es : List Edge) (e : Edge) :
    f.approach a (es ++ [e]) = f.trace a es := by
  simp [approach]

theorem trace_eq_approach {a b : BlockId} {es : List Edge} (hw : f.Walk a es b) :
    f.trace a es = f.approach a es ++ f.eventsAt b := by
  rcases List.eq_nil_or_concat es with rfl | ⟨es, e, rfl⟩
  · rw [walk_nil] at hw
    rw [trace_nil, approach_nil, hw, List.nil_append]
  · rw [List.concat_eq_append] at hw ⊢
    obtain ⟨c, _, _, rfl⟩ := walk_snoc.1 hw
    rw [trace_snoc, approach_snoc]

theorem trace_split_pass {a b : BlockId} {es : List Edge} {before after : List TraceEvent} {s : Site}
    (hw : f.Walk a es b) (ht : f.trace a es = before ++ .pass s :: after) :
    ∃ es₁ es₂ c pre post, es = es₁ ++ es₂ ∧ f.Walk a es₁ c ∧ f.Walk c es₂ b ∧
      f.sitesAt c = pre ++ s :: post ∧
      before = f.approach a es₁ ++ .enter c :: pre.map .pass ∧
      after = post.map .pass ++ es₂.flatMap fun e => f.eventsAt e.dst := by
  obtain ⟨es₁, es₂, c, pre, post, hes, h₁, h₂, hev, htr, hafter⟩ := trace_split hw ht
  obtain ⟨sites, sites', hsites, rfl, rfl⟩ := eventsAt_split hev
  refine ⟨es₁, es₂, c, sites, sites', hes, h₁, h₂, hsites, ?_, hafter⟩
  rw [trace_eq_approach h₁, hev, ← List.append_assoc] at htr
  exact (List.append_cancel_right htr).symm

theorem trace_of_site {a c : BlockId} {es : List Edge} {s : Site} {pre post : List Site}
    (es' : List Edge) (hw : f.Walk a es c) (hs : f.sitesAt c = pre ++ s :: post) :
    f.trace a (es ++ es') = f.approach a es ++ .enter c :: pre.map .pass ++
      .pass s :: (post.map .pass ++ es'.flatMap fun e => f.eventsAt e.dst) := by
  rw [trace_append, trace_eq_approach hw, eventsAt, hs]
  simp

/-- A walk that ends in a set of blocks has been there from its start, or since it last came in. -/
theorem walk_lastStay (p : BlockId → Bool) {a c : BlockId} {es : List Edge} (hw : f.Walk a es c)
    (hc : p c = true) : (∀ x, .enter x ∈ f.trace a es → p x = true) ∨
      ∃ es₁ e es₂ q, es = es₁ ++ e :: es₂ ∧ f.Walk a es₁ q ∧ p q = false ∧ e ∈ f.edgesAt q ∧
        f.Walk e.dst es₂ c ∧ ∀ x, .enter x ∈ f.trace e.dst es₂ → p x = true := by
  induction es generalizing a with
  | nil =>
    rw [walk_nil] at hw
    subst hw
    left
    intro x hx
    rw [trace_nil, mem_eventsAt_enter] at hx
    exact hx ▸ hc
  | cons e es ih =>
    -- the rest stays inside from its start: what the first block is decides
    rcases ih hw.2 with hall | ⟨es₁, e', es₂, q, rfl, h₁, hq, he', h₂, hin⟩
    · cases ha : p a with
      | true =>
        left
        intro x hx
        rw [trace_cons, List.mem_append, mem_eventsAt_enter] at hx
        rcases hx with rfl | hx
        · exact ha
        · exact hall x hx
      | false => exact .inr ⟨[], e, es, a, rfl, rfl, ha, hw.1, hw.2, hall⟩
    · exact .inr ⟨e :: es₁, e', es₂, q, rfl, ⟨hw.1, h₁⟩, hq, he', h₂, hin⟩

theorem walk_firstLeave (p : BlockId → Bool) {a c : BlockId} {es : List Edge} (hw : f.Walk a es c)
    (ha : p a = true) (hleave : ¬ ∀ e ∈ es, p e.dst = true) :
    ∃ es₁ e es₂ q, es = es₁ ++ e :: es₂ ∧ f.Walk a es₁ q ∧ p q = true ∧ e ∈ f.edgesAt q ∧
      p e.dst = false ∧ ∀ x ∈ es₁, p x.dst = true := by
  induction es generalizing a with
  | nil => exact absurd (by simp) hleave
  | cons e es ih =>
    cases he : p e.dst with
    | false => exact ⟨[], e, es, a, rfl, rfl, ha, hw.1, he, by simp⟩
    | true =>
      have hrest : ¬ ∀ x ∈ es, p x.dst = true := fun h => hleave (List.forall_mem_cons.2 ⟨he, h⟩)
      obtain ⟨es₁, e', es₂, q, rfl, h₁, hq, he', hout, hin⟩ := ih hw.2 he hrest
      exact ⟨e :: es₁, e', es₂, q, rfl, ⟨hw.1, h₁⟩, hq, he', hout, List.forall_mem_cons.2 ⟨he, hin⟩⟩

theorem enter_of_pass {a : BlockId} {es : List Edge} {s : Site} (h : .pass s ∈ f.trace a es) :
    ∃ c, .enter c ∈ f.trace a es ∧ s ∈ f.sitesAt c := by
  rw [trace, List.mem_append, List.mem_flatMap] at h
  rcases h with h | ⟨e, he, h⟩
  · exact ⟨a, enter_mem_trace.2 (.inl rfl), mem_eventsAt_pass.1 h⟩
  · exact ⟨e.dst, enter_mem_trace.2 (.inr ⟨e, he, rfl⟩), mem_eventsAt_pass.1 h⟩

theorem mem_allSites_of_pass {a : BlockId} {es : List Edge} {s : Site} (h : .pass s ∈ f.trace a es) :
    s ∈ f.allSites := by
  obtain ⟨c, _, hs⟩ := enter_of_pass h
  exact mem_allSites.2 ⟨c, hs⟩

theorem pass_of_enter {a c : BlockId} {es : List Edge} {s : Site} (h : .enter c ∈ f.trace a es)
    (hs : s ∈ f.sitesAt c) : .pass s ∈ f.trace a es := by
  rw [enter_mem_trace] at h
  rw [trace, List.mem_append, List.mem_flatMap]
  rcases h with rfl | ⟨e, he, rfl⟩
  · exact .inl (mem_eventsAt_pass.2 hs)
  · exact .inr ⟨e, he, mem_eventsAt_pass.2 hs⟩

end Function
end MovePlan
