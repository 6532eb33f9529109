import MovePlan.Proofs.Types.Names

set_option autoImplicit false

/-!
# Shared pointers and references

A pointer or a reference is registered once for each type that it leads to, and no operation changes
where it leads. So all calls on a table get equal ids for equal requests, and for no others.
-/
namespace MovePlan

/-- What a pointer or a reference is registered for. -/
inductive Link
  | pointer (inner : TypeId)
  | reference (inner : TypeId) (isMut : Bool)
deriving DecidableEq

def TypeDef.link? (d : TypeDef) : Option Link :=
  match d.kind, d.target, d.mutable with
  | .pointer, some inner, _ => some (.pointer inner)
  | .reference, some inner, some isMut => some (.reference inner isMut)
  | _, _, _ => none

theorem TypeDef.link?_pointer {d : TypeDef} {inner : TypeId} :
    (d.kind == .pointer && d.target == some inner) = true ↔ d.link? = some (.pointer inner) := by
  rw [Bool.and_eq_true, beq_iff_eq, beq_iff_eq, link?]
  split
  next hk ht => simp [hk, ht]
  next hk ht hm => simp [hk]
  next hpointer hreference => simpa using fun hk ht => hpointer inner hk ht

theorem TypeDef.link?_reference {d : TypeDef} {inner : TypeId} {isMut : Bool} :
    (d.kind == .reference && d.target == some inner && d.mutable == some isMut) = true ↔
      d.link? = some (.reference inner isMut) := by
  rw [Bool.and_eq_true, Bool.and_eq_true, beq_iff_eq, beq_iff_eq, beq_iff_eq, link?]
  split
  next hk ht => simp [hk]
  next hk ht hm => simp [hk, ht, hm]
  next hpointer hreference => simpa using fun hk ht hm => hreference inner isMut hk ht hm

namespace TypeTable
variable {t t' : TypeTable}

def link? (t : TypeTable) (id : TypeId) : Option Link := (t.get? id).bind TypeDef.link?

def DistinctLinks (t : TypeTable) : Prop :=
  ∀ {a b : TypeId} {l : Link}, t.link? a = some l → t.link? b = some l → a = b

theorem link?_eq (t : TypeTable) (id : TypeId) :
    t.link? id = if 1 ≤ id then (t.defs.map TypeDef.link?)[(id - 1).toNat]?.join else none := by
  rw [link?, get?]
  split
  · rw [List.getElem?_map, ← Option.bind_id_eq_join, Option.bind_map]
    rfl
  · rfl

theorem link?_congr (h : t'.defs.map TypeDef.link? = t.defs.map TypeDef.link?) (id : TypeId) :
    t'.link? id = t.link? id := by
  rw [link?_eq, link?_eq, h]

theorem distinctLinks_empty : DistinctLinks {} := by
  intro a b l ha
  rw [link?_eq] at ha
  split at ha <;> cases ha

theorem get?_append (d : TypeDef) (id : Int) :
    (t.append d).1.get? id = if id = (t.append d).2 then some d else t.get? id := by
  change (if 1 ≤ id then (t.defs ++ [d])[(id - 1).toNat]? else none) =
    if id = (t.defs.length : Int) + 1 then some d
    else if 1 ≤ id then t.defs[(id - 1).toNat]? else none
  by_cases hid : id = (t.defs.length : Int) + 1
  · have hindex : (id - 1).toNat = t.defs.length := by omega
    have hpos : 1 ≤ id := by omega
    rw [if_pos hid, if_pos hpos, hindex, List.getElem?_concat_length]
  · rw [if_neg hid]
    split
    next hpos =>
      rcases Nat.lt_or_ge (id - 1).toNat t.defs.length with hlt | hge
      · rw [List.getElem?_append_left hlt]
      · have hpast : t.defs.length + 1 ≤ (id - 1).toNat := by omega
        rw [List.getElem?_eq_none hge, List.getElem?_eq_none (by simpa using hpast)]
    next => rfl

theorem exists_of_findFrom {p : TypeDef → Bool} {first id : Int} {ds : List TypeDef}
    (h : findFrom p first ds = some id) : ∃ d, ds[(id - first).toNat]? = some d ∧ p d = true := by
  induction ds generalizing first with
  | nil => cases h
  | cons d ds ih =>
    rw [findFrom] at h
    split at h
    next hp =>
      obtain rfl : first = id := Option.some.inj h
      exact ⟨d, by simp, hp⟩
    next =>
      have hfirst := (le_of_findFrom h).1
      have hindex : (id - first).toNat = (id - (first + 1)).toNat + 1 := by omega
      rw [hindex, List.getElem?_cons_succ]
      exact ih h

/-- What an operation on a table keeps. -/
structure Keeps (t t' : TypeTable) : Prop where
  built : t.Built → t'.Built
  link? : ∀ {id : TypeId} {l : Link}, t.link? id = some l → t'.link? id = some l
  distinct : t.DistinctLinks → t'.DistinctLinks

namespace Keeps

theorem refl (t : TypeTable) : t.Keeps t := ⟨id, id, id⟩

theorem trans {t'' : TypeTable} (h : t.Keeps t') (h' : t'.Keeps t'') : t.Keeps t'' :=
  ⟨h'.built ∘ h.built, h'.link? ∘ h.link?, h'.distinct ∘ h.distinct⟩

theorem of_same (hbuilt : t.Built → t'.Built) (h : ∀ id, t'.link? id = t.link? id) : t.Keeps t' where
  built := hbuilt
  link? hid := (h _).trans hid
  distinct hd _ _ _ ha hb := hd ((h _).symm.trans ha) ((h _).symm.trans hb)

theorem of_added {d : TypeDef} (h : t'.defs = t.defs ++ [d]) (hbuilt : t.Built → t'.Built)
    (hnew : ∀ {id : TypeId} {l : Link}, t.link? id = some l → d.link? ≠ some l) : t.Keeps t' := by
  have hlink : ∀ id, t'.link? id = if id = (t.append d).2 then d.link? else t.link? id := by
    intro id
    rw [link?_congr (t := (t.append d).1) (congrArg _ h), TypeTable.link?, get?_append]
    split <;> rfl
  have hlast : t.link? (t.append d).2 = none := by
    rw [TypeTable.link?, TypeTable.get?, TypeTable.append, size]
    simp
  refine ⟨hbuilt, fun {id l} hid => ?_, fun hd a b l ha hb => ?_⟩
  · have hne : id ≠ (t.append d).2 := by
      rintro rfl
      rw [hlast] at hid
      cases hid
    rw [hlink, if_neg hne, hid]
  · rw [hlink] at ha hb
    split at ha
    next ha' =>
      split at hb
      next hb' => rw [ha', hb']
      next => exact absurd ha (hnew hb)
    next =>
      split at hb
      next => exact absurd hb (hnew ha)
      next => exact hd ha hb

theorem of_adds {d : TypeDef} (h : t.Adds t' d) (hd : d.link? = none) (hbuilt : t.Built → t'.Built) :
    t.Keeps t' := by
  rcases h with h | h
  · exact .of_same hbuilt (link?_congr (congrArg _ h))
  · refine .of_added h hbuilt fun _ hl => ?_
    rw [hd] at hl
    cases hl

theorem of_defineStruct {id : TypeId} {fields : List Field} (ht : t.defineStruct id fields = .ok t') :
    t.Keeps t' :=
  .of_same (.defineStruct · ht) (link?_congr (map_defs_of_defineStruct (fun _ _ => rfl) ht))

end Keeps

theorem keeps_of_shared {l : Link} {p : TypeDef → Bool}
    (hp : ∀ {x : TypeDef}, p x = true ↔ x.link? = some l)
    {inner : TypeId} {d : TypeDef → TypeDef} (hd : ∀ x, (d x).link? = some l) {id : TypeId}
    (ht : (match findFrom p 1 t.defs with
      | some id => .ok (t, id)
      | none => do
        let x ← t.get inner
        return t.append (d x)) = (.ok (t', id) : Except TypeError (TypeTable × TypeId)))
    (hbuilt : t.Built → t'.Built) : t.Keeps t' ∧ t'.link? id = some l := by
  rcases of_shared ht with ⟨hfound, rfl⟩ | ⟨hnone, x, -, rfl, rfl⟩
  · obtain ⟨x, hx, hpx⟩ := exists_of_findFrom hfound
    have hget : t'.get? id = some x := by rw [get?, if_pos (le_of_findFrom hfound).1, hx]
    exact ⟨.refl t', by rw [link?, hget, Option.bind_some, hp.1 hpx]⟩
  · refine ⟨.of_added rfl hbuilt fun {i m} hi heq => ?_, ?_⟩
    · -- a type that is registered for the link would have been found
      obtain ⟨y, hy, hlink⟩ := Option.bind_eq_some_iff.1 hi
      have hfound : (findFrom p 1 t.defs).isSome = true := by
        refine findFrom_isSome_iff.2 ⟨y, mem_defs_of_get (get_eq_ok.2 hy), hp.2 ?_⟩
        rw [hlink, ← heq, hd]
      rw [hnone] at hfound
      cases hfound
    · rw [link?, get?_append, if_pos rfl, Option.bind_some, hd]

theorem keeps_of_newPointer {inner id : TypeId} (ht : t.newPointer inner = .ok (t', id)) :
    t.Keeps t' ∧ t'.link? id = some (.pointer inner) :=
  keeps_of_shared TypeDef.link?_pointer (fun _ => rfl) ht (.newPointer · ht)

theorem keeps_of_newReference {inner id : TypeId} {isMut : Bool}
    (ht : t.newReference inner isMut = .ok (t', id)) :
    t.Keeps t' ∧ t'.link? id = some (.reference inner isMut) :=
  keeps_of_shared TypeDef.link?_reference (fun _ => rfl) ht (.newReference · ht)

end TypeTable

/-- A call on a table. -/
inductive TableCall
  | newScalar (name : String)
  | newForeign (name : String) (ops : UserOps)
  | declareStruct (name : String) (ops : UserOps)
  | defineStruct (id : TypeId) (fields : List Field)
  | newStruct (name : String) (fields : List Field) (ops : UserOps)
  | newPointer (inner : TypeId)
  | newReference (inner : TypeId) (isMut : Bool)
  | ensureInt
  | ensureBool
  | ensureUnknown
deriving DecidableEq

namespace TableCall

/-- A call that is refused leaves the table as it was. -/
def settled (t : TypeTable) (r : Except TypeError (TypeTable × TypeId)) :
    TypeTable × Except TypeError (Option TypeId) :=
  match r with
  | .ok (t', id) => (t', .ok (some id))
  | .error e => (t, .error e)

/-- The table after a call and the answer to it. The definition of a struct answers with no id. -/
def run (t : TypeTable) : TableCall → TypeTable × Except TypeError (Option TypeId)
  | newScalar name => settled t (t.newScalar name)
  | newForeign name ops => settled t (t.newForeign name ops)
  | declareStruct name ops => settled t (t.declareStruct name ops)
  | defineStruct id fields =>
    match t.defineStruct id fields with
    | .ok t' => (t', .ok none)
    | .error e => (t, .error e)
  | newStruct name fields ops =>
    let made := t.newStruct name fields ops
    (made.1, made.2.map some)
  | newPointer inner => settled t (t.newPointer inner)
  | newReference inner isMut => settled t (t.newReference inner isMut)
  | ensureInt => settled t t.ensureInt
  | ensureBool => settled t t.ensureBool
  | ensureUnknown => settled t t.ensureUnknown

/-- The calls one after the other, each with its answer. -/
def runAll (t : TypeTable) : List TableCall →
    TypeTable × List (TableCall × Except TypeError (Option TypeId))
  | [] => (t, [])
  | c :: cs => ((runAll (c.run t).1 cs).1, (c, (c.run t).2) :: (runAll (c.run t).1 cs).2)

variable {t : TypeTable}

theorem of_settled {r : Except TypeError (TypeTable × TypeId)} {id : TypeId}
    (h : (settled t r).2 = .ok (some id)) : r = .ok ((settled t r).1, id) := by
  rcases r with e | ⟨t', i⟩
  · cases h
  · rw [Option.some.inj (Except.ok.inj h)]
    rfl

theorem keeps_settled {r : Except TypeError (TypeTable × TypeId)}
    (h : ∀ {t' : TypeTable} {id : TypeId}, r = .ok (t', id) → t.Keeps t') : t.Keeps (settled t r).1 := by
  rcases r with e | ⟨t', id⟩
  · exact .refl t
  · exact h rfl

theorem keeps_run (c : TableCall) : t.Keeps (c.run t).1 := by
  have hregister : ∀ {d : TypeDef} {t' : TypeTable} {id : TypeId}, d.link? = none →
      (t.Built → t'.Built) → t.register d = .ok (t', id) → t.Keeps t' :=
    fun hd hbuilt ht => .of_adds (TypeTable.adds_of_register ht) hd hbuilt
  cases c with
  | newScalar name => exact keeps_settled fun ht => hregister rfl (.newScalar · ht) ht
  | newForeign name ops => exact keeps_settled fun ht => hregister rfl (.newForeign · ht) ht
  | declareStruct name ops => exact keeps_settled fun ht => hregister rfl (.declareStruct · ht) ht
  | defineStruct id fields =>
    rw [run]
    split
    next ht => exact .of_defineStruct ht
    next => exact .refl t
  | newStruct name fields ops =>
    change t.Keeps (t.newStruct name fields ops).1
    rw [TypeTable.newStruct]
    split
    next => exact .refl t
    next t₁ id hdeclare =>
      have hdeclared : t.Keeps t₁ := hregister rfl (.declareStruct · hdeclare) hdeclare
      split
      next => exact hdeclared
      next hdefine => exact hdeclared.trans (.of_defineStruct hdefine)
  | newPointer inner => exact keeps_settled fun ht => (TypeTable.keeps_of_newPointer ht).1
  | newReference inner isMut => exact keeps_settled fun ht => (TypeTable.keeps_of_newReference ht).1
  | ensureInt =>
    exact keeps_settled fun ht => .of_adds (TypeTable.adds_of_ensureInt ht) rfl (.ensureInt · ht)
  | ensureBool =>
    exact keeps_settled fun ht => .of_adds (TypeTable.adds_of_ensureBool ht) rfl (.ensureBool · ht)
  | ensureUnknown =>
    exact keeps_settled fun ht => .of_adds (TypeTable.adds_of_ensureUnknown ht) rfl (.ensureUnknown · ht)

theorem keeps_runAll (calls : List TableCall) : t.Keeps (runAll t calls).1 := by
  induction calls generalizing t with
  | nil => exact .refl t
  | cons c calls ih => exact (keeps_run c).trans ih

end TableCall

def Link.inner : Link → TypeId
  | pointer inner => inner
  | reference inner _ => inner

/-- The call that asks for a pointer or a reference. -/
def Link.call : Link → TableCall
  | pointer inner => .newPointer inner
  | reference inner isMut => .newReference inner isMut

namespace TableCall
variable {t : TypeTable}

theorem exists_run {l : Link} (h : t.contains l.inner = true) :
    ∃ id, (l.call.run t).2 = .ok (some id) := by
  cases l with
  | pointer inner =>
    obtain ⟨t', id, ht, -, -⟩ := TypeTable.exists_newPointer h
    change t.newPointer inner = _ at ht
    exact ⟨id, by rw [Link.call, run, ht]; rfl⟩
  | reference inner isMut =>
    obtain ⟨t', id, ht, -, -⟩ := TypeTable.exists_newReference h
    change t.newReference inner isMut = _ at ht
    exact ⟨id, by rw [Link.call, run, ht]; rfl⟩

theorem link?_run {l : Link} {id : TypeId} (h : (l.call.run t).2 = .ok (some id)) :
    (l.call.run t).1.link? id = some l := by
  cases l with
  | pointer inner => exact (TypeTable.keeps_of_newPointer (of_settled h)).2
  | reference inner isMut => exact (TypeTable.keeps_of_newReference (of_settled h)).2

theorem link?_runAll {calls : List TableCall} {l : Link} {id : TypeId}
    (h : (l.call, .ok (some id)) ∈ (runAll t calls).2) : (runAll t calls).1.link? id = some l := by
  induction calls generalizing t with
  | nil => simp [runAll] at h
  | cons c calls ih =>
    rcases List.mem_cons.1 h with heq | h
    · obtain ⟨rfl, hid⟩ := Prod.mk.inj heq
      exact (keeps_runAll calls).link? (link?_run hid.symm)
    · exact ih h

/-- Over a whole run equal ids are answered for equal links, and for no others. -/
theorem answered_iff {calls : List TableCall} {l m : Link} {a b : TypeId}
    (ha : (l.call, .ok (some a)) ∈ (runAll {} calls).2)
    (hb : (m.call, .ok (some b)) ∈ (runAll {} calls).2) : a = b ↔ l = m := by
  have hla := link?_runAll ha
  have hmb := link?_runAll hb
  constructor
  · rintro rfl
    exact Option.some.inj (hla.symm.trans hmb)
  · rintro rfl
    exact (keeps_runAll calls).distinct TypeTable.distinctLinks_empty hla hmb

end TableCall
end MovePlan
