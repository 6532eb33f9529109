import MovePlan.Diagnostic
import MovePlan.Json
import MovePlan.Plan.Listing

set_option autoImplicit false

namespace MovePlan

/-- A diagnostic that names no pass or no file gets the given ones. -/
def Diagnostic.toJson (d : Diagnostic) (phase : String) (source : Option String) : Json :=
  .obj [
    ("phase", .str ((d.phase.filter (· ≠ "")).getD phase)),
    ("code", .ofOption .str d.code),
    ("message", .str d.message),
    ("severity", .str d.severity.label),
    ("file", .ofOption .str (d.span.file.or source)),
    ("line", .ofOption .int d.span.line),
    ("column", .ofOption .int d.span.column),
    ("notes", .ofList .str d.notes)]

def UseDecision.toJson? (d : UseDecision) (id : SiteId) (site : Option Site) : Option Json := do
  let at_ ← match site with
    | none => some .null
    | some s => s.describe?.map .str
  return .obj [
    ("site", .int id),
    ("at", at_),
    ("decision", .str d.kind.label),
    ("transfers_ownership", .bool d.transfers),
    ("reason", .str d.reason.label)]

def DestructionPlan.toJson (d : DestructionPlan) (place : Place) : Json :=
  .obj [
    ("place", .str place.render),
    ("kind", .str d.disposal.kind.label),
    ("flag", .ofOption (fun flag : DropFlag => .str flag.name) d.disposal.flag?),
    ("partial", .bool d.isPartial),
    ("reason", .str d.reason.label)]

def DropFlag.toJson (flag : DropFlag) : Json :=
  .obj [
    ("name", .str flag.name),
    ("decl_site", .ofOption .int flag.declSite),
    ("clear", .ofList (fun p : ClearPoint =>
      .obj [("site", .int p.site), ("before_call", .bool p.beforeCall)]) flag.clears),
    ("set", .ofList (fun p : SetPoint => .obj [("site", .int p.site)]) flag.sets)]

def AssignPlan.toJson (a : AssignPlan) (site : SiteId) : Json :=
  .obj [
    ("site", .int site),
    ("dest", .str a.place.render),
    ("order", .str a.order.label),
    ("dest_state", .str a.destState.label),
    ("dispose", .str a.dispose.label),
    ("flag", .ofOption .str a.flag),
    ("source_site", .ofOption .int a.sourceSite)]

def FunctionPlan.ownFields? (p : FunctionPlan) (f : Function) : Option (List (String × Json)) := do
  let decisions ← p.sortedDecisions.mapM fun (id, d) => d.toJson? id (f.lastSite? id)
  let destruction := p.sortedDestruction
  return [
   ("function", .str p.name),
   ("excluded", .bool p.excluded),
   ("decisions", .arr decisions),
   ("destruction", .ofList (fun (place, d) => d.toJson place) destruction),
   ("flags", .ofList DropFlag.toJson (destruction.filterMap fun (_, d) => d.disposal.flag?)),
   ("assigns", .ofList (fun (id, a) => a.toJson id) p.sortedAssigns)]

mutual

def FunctionPlan.toJson? (extra : FunctionPlan → List (String × Json)) (f : Function) :
    FunctionPlan → Option Json
  | ⟨name, decisions, destruction, assigns, diagnostics, excluded, facts, nested⟩ => do
    let own : FunctionPlan :=
      ⟨name, decisions, destruction, assigns, diagnostics, excluded, facts, nested⟩
    let fields ← own.ownFields? f
    let inner ← plansJson? extra f.nested nested
    return .obj (fields ++ [("nested", .arr inner)] ++ extra own)

def plansJson? (extra : FunctionPlan → List (String × Json)) (fs : List Function) :
    List FunctionPlan → Option (List Json)
  | [] => some []
  | p :: ps =>
    match fs with
    | [] => some []
    | f :: fs => do
      let plan ← p.toJson? extra f
      let rest ← plansJson? extra fs ps
      return plan :: rest

end

end MovePlan
