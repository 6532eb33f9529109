import MovePlan.Plan.Basic

set_option autoImplicit false

namespace MovePlan
namespace FunctionPlan

def sortedDecisions (p : FunctionPlan) : List (SiteId × UseDecision) :=
  sortBy (fun a b => decide (a.1 ≤ b.1)) p.decisions.entries

def sortedDestruction (p : FunctionPlan) : List (Place × DestructionPlan) :=
  sortBy (fun a b => nameLe a.1.render b.1.render) p.destruction.entries

def sortedAssigns (p : FunctionPlan) : List (SiteId × AssignPlan) :=
  sortBy (fun a b => decide (a.1 ≤ b.1)) p.assigns.entries

end FunctionPlan

def Function.lastSite? (f : Function) (id : SiteId) : Option Site :=
  f.allSites.reverse.find? (·.id = id)

def UseDecision.listing? (d : UseDecision) (s : Site) : Option String := do
  let site ← s.describe?
  let transfers := if d.transfers then ", transfers" else ""
  return s!"{site}: {d.kind.label} ({d.reason.label}{transfers})"

def DestructionPlan.listing (d : DestructionPlan) (p : Place) : String :=
  let flag := match d.disposal.flag? with
    | some flag => s!" flag {flag.name}"
    | none => ""
  let rest := if d.isPartial then " partial" else ""
  s!"{p.render}: {d.disposal.kind.label}{flag}{rest} ({d.reason.label})"

def AssignPlan.listing? (a : AssignPlan) (site : SiteId) : Option String := do
  let site ← Numeral.text? site
  return s!"assign {a.place.render} @site {site}: {a.order.label}, " ++
    s!"dest {a.destState.label}, dispose {a.dispose.label}"

def FunctionPlan.ownListing? (p : FunctionPlan) (f : Function) : Option (List String) := do
  let consuming := p.sortedDecisions.filterMap fun (id, d) =>
    ((f.lastSite? id).filter (·.kind = .moveOut)).map fun s => (s, d)
  let decisions ← consuming.mapM fun (s, d) => d.listing? s
  let assigns ← p.sortedAssigns.mapM fun (id, a) => a.listing? id
  return decisions ++ (p.sortedDestruction.map fun (place, d) => d.listing place) ++ assigns

mutual

/-- The lines of a plan, where nested plans are indented; none if a number has too many digits. -/
def FunctionPlan.listing? (f : Function) (indent : String) : FunctionPlan → Option (List String)
  | ⟨name, decisions, destruction, assigns, diagnostics, excluded, facts, nested⟩ => do
    let own ← FunctionPlan.ownListing?
      ⟨name, decisions, destruction, assigns, diagnostics, excluded, facts, nested⟩ f
    let mark := if excluded then " (excluded)" else ""
    let inner ← plansListing? f.nested (indent ++ "  ") nested
    return s!"{indent}fn {name}{mark}:" :: own.map (fun l => s!"{indent}  {l}") ++ inner

def plansListing? (fs : List Function) (indent : String) : List FunctionPlan → Option (List String)
  | [] => some []
  | p :: ps =>
    match fs with
    | [] => some []
    | f :: fs => do
      let lines ← p.listing? f indent
      let rest ← plansListing? fs indent ps
      return lines ++ rest

end

def FunctionPlan.trace (p : FunctionPlan) (f : Function) : String :=
  let lastUses := match p.facts with
    | none => 0
    | some facts =>
      ((distinct (facts.accesses.map AccessFact.site)).filter facts.isLastUse).length
  let excluded := if p.excluded then "True" else "False"
  s!"[movec] {p.name}: blocks={f.blocks.size} sites={p.decisions.size} last_use={lastUses} " ++
    s!"moves={p.moves.length} flags={p.flags.length} excluded={excluded}"

end MovePlan
