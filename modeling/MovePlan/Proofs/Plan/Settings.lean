import MovePlan.Flow.Script
import MovePlan.Proofs.Plan.UseAfterMove
import MovePlan.Types.Standard

set_option autoImplicit false

namespace MovePlan

def AssignPlan.unordered (a : AssignPlan) : AssignPlan := { a with order := .destroyThenConstruct }

def unorderedAssigns (assigns : OrderedMap SiteId AssignPlan) : OrderedMap SiteId AssignPlan :=
  assigns.mapEntries fun _ a => a.unordered

mutual

def FunctionPlan.unordered : FunctionPlan → FunctionPlan
  | ⟨name, decisions, destruction, assigns, diagnostics, excluded, facts, nested⟩ =>
    ⟨name, decisions, destruction, unorderedAssigns assigns, diagnostics, excluded, facts,
      unorderedPlans nested⟩

def unorderedPlans : List FunctionPlan → List FunctionPlan
  | [] => []
  | p :: ps => p.unordered :: unorderedPlans ps

end

theorem mapEntries_put {κ α β : Type} [DecidableEq κ] (g : α → β) (m : OrderedMap κ α) (k : κ) (v : α) :
    (m.put k v).mapEntries (fun _ => g) = (m.mapEntries fun _ => g).put k (g v) := by
  have hentries : ∀ es : List (κ × α), (OrderedMap.putIn k v es).map (fun e => (e.1, g e.2)) =
      OrderedMap.putIn k (g v) (es.map fun e => (e.1, g e.2)) := by
    intro es
    induction es with
    | nil => rfl
    | cons e es ih => by_cases he : e.1 = k <;> simp [OrderedMap.putIn, he, ih]
  simp only [OrderedMap.mapEntries, OrderedMap.put, hentries]

theorem mapEntries_ofList {κ α β : Type} [DecidableEq κ] (g : α → β) (es : List (κ × α)) :
    (OrderedMap.ofList es).mapEntries (fun _ => g) = .ofList (es.map fun e => (e.1, g e.2)) := by
  have hfold : ∀ (es : List (κ × α)) (m : OrderedMap κ α),
      (es.foldl (fun m e => m.put e.1 e.2) m).mapEntries (fun _ => g) =
        (es.map fun e => (e.1, g e.2)).foldl (fun m e => m.put e.1 e.2) (m.mapEntries fun _ => g) := by
    intro es
    induction es with
    | nil => exact fun _ => rfl
    | cons e es ih =>
      intro m
      rw [List.foldl_cons, ih, mapEntries_put, List.map_cons, List.foldl_cons]
  exact hfold es .empty

namespace Function
variable {f : Function} {m : TypeModel} {settings settings' : Settings}

def SameMoves (settings' settings : Settings) : Prop :=
  settings'.lastUseMode = settings.lastUseMode ∧ settings'.inlineForwarding = settings.inlineForwarding

end Function

namespace Function
variable {f : Function} {m : TypeModel} {t : TypeTable} {settings settings' : Settings}
  {plan plan' : FunctionPlan}

end Function
end MovePlan
