import MovePlan.Flow.Script
import MovePlan.Proofs.Flow.Operations

set_option autoImplicit false

namespace MovePlan

/-- What comes after a builder, once every scope that was opened since has been closed again. -/
structure Builder.Continues (b b' : Builder) : Prop where
  built : b'.Built
  placed : b'.Placed
  nextBlock_le : b.nextBlock ≤ b'.nextBlock
  widened : Widened b.scopes b'.scopes

namespace Builder.Continues
variable {b b' : Builder}

theorem refl (hb : b.Built) (hp : b.Placed) : b.Continues b := ⟨hb, hp, le_rfl, Widened.refl _⟩

theorem trans {c : Builder} (h : b.Continues b') (h' : b'.Continues c) : b.Continues c :=
  ⟨h'.built, h'.placed, h.nextBlock_le.trans h'.nextBlock_le, h.widened.trans h'.widened⟩

theorem holds (h : b.Continues b') {id : BlockId} (hid : b.Holds id) : b'.Holds id :=
  hid.mono h.nextBlock_le h.widened

theorem of_grows {strict : Prop} (h : b.Grows strict b') (hb : b.Built) (hp : b.Placed) :
    b.Continues b' :=
  ⟨h.built hb, h.placed hp, h.nextBlock_le, h.widened⟩

theorem enter (hb : b.Built) {first : BlockId} (hfirst : b.Holds first) :
    (b.enter first).Continues (b.enter first) :=
  refl (hb.enter hfirst.opened) (placed_enter hfirst)

theorem closed {first : BlockId} (h : (b.enter first).Continues b') : b.Continues b'.popScope where
  built := h.built.popScope
  placed := h.placed.popScope
  nextBlock_le := by
    rw [nextBlock_popScope]
    exact h.nextBlock_le
  widened := by
    rw [scopes_popScope]
    exact h.widened.tail

theorem finish (hb : b.Built) (hp : b.Placed) : b.Continues b.finish := by
  have hscopes : b.finish.scopes = b.scopes :=
    drawJumps_induction (P := fun c => c.scopes = b.scopes) (fun _ _ _ _ h => h) rfl _ _
  refine ⟨hb.finish, fun id hid => ?_, b.nextBlock_finish.ge, hscopes ▸ Widened.refl _⟩
  rw [current_finish] at hid
  rw [Holds, nextBlock_finish, hscopes]
  exact hp id hid

end Builder.Continues

namespace Script
open Build

abbrev Follows (s' s : Session) : Prop := s.builder.Continues s'.builder

section Session
variable {α : Type} {good : α → Builder → Prop} {s : Session} {step : Step}

theorem extend_follows {op : Extend α} (h : Builds False s.builder good op) (hs : Follows s s) :
    Follows (s.extend op).2 s ∧ good (s.extend op).1 (s.extend op).2.builder := by
  obtain ⟨hgrows, ha⟩ := h hs.placed
  exact ⟨.of_grows hgrows hs.built hs.placed, ha⟩

theorem attempt_follows {op : Build α} (h : BuildsOrFails False s.builder good op) (hs : Follows s s) :
    Follows (s.attempt op).2 s ∧
      ∀ a, (s.attempt op).1 = .ok a → good a (s.attempt op).2.builder :=
  extend_follows h hs

theorem perform_follows {op : Build Outcome} (h : ∀ b, BuildsOrFails False b anyAnswer op)
    (hs : Follows s s) : Follows (s.perform step op).2 s :=
  (attempt_follows (h _) hs).1

theorem conclude_follows {outcome : Outcome} {body : List LogEntry} {op : Extend Unit}
    (h : Builds False s.builder anyAnswer op) (hs : Follows s s) :
    Follows (s.conclude step outcome body op).2 s :=
  (extend_follows h hs).1

theorem withType_follows {ref : TypeRef} {op : TypeId → Build Outcome}
    (h : ∀ id b, BuildsOrFails False b anyAnswer (op id)) (hs : Follows s s) :
    Follows (s.withType step ref op).2 s := by
  rw [Session.withType]
  split
  · exact hs
  next t id _ =>
    let registered : Session := { s with table := t }
    have hs' : Follows registered registered := hs
    have hdone : Follows (registered.perform step (op id)).2 registered := perform_follows (h id) hs'
    exact hdone

theorem withSource_follows {source : Source TypeRef} {op : Source TypeId → Build Outcome}
    (h : ∀ source b, BuildsOrFails False b anyAnswer (op source)) (hs : Follows s s) :
    Follows (s.withSource step source op).2 s := by
  cases source with
  | place ref => exact perform_follows (h _) hs
  | temp type => exact withType_follows (fun id => h _) hs

theorem withSources_follows {sources : List (Source TypeRef)}
    {op : List (Source TypeId) → Build Outcome}
    (h : ∀ sources b, BuildsOrFails False b anyAnswer (op sources)) (hs : Follows s s) :
    Follows (s.withSources step sources op).2 s := by
  rw [Session.withSources]
  split
  · exact hs
  next sources t _ =>
    let registered : Session := { s with table := t }
    have hs' : Follows registered registered := hs
    have hdone : Follows (registered.perform step (op sources)).2 registered :=
      perform_follows (h sources) hs'
    exact hdone

theorem withLoop_follows {loops : List LoopBlocks} {depth : ℕ} {op : LoopBlocks → Extend Unit}
    (h : ∀ {l : LoopBlocks} {b : Builder}, OpenedLoop b.nextBlock l → Builds False b anyAnswer (op l))
    (hloops : ∀ l ∈ loops, OpenedLoop s.builder.nextBlock l) (hs : Follows s s) :
    Follows (s.withLoop step loops depth op).2 s := by
  rw [Session.withLoop]
  split
  · exact hs
  next l hl => exact conclude_follows (h (hloops l (List.mem_of_getElem? hl))) hs

theorem inArm_follows {first : BlockId} {body : Session → List LogEntry × Session}
    (hfirst : s.builder.Holds first)
    (hbody : ∀ s' : Session, Follows s' s' → s.builder.nextBlock ≤ s'.builder.nextBlock →
      Follows (body s').2 s') (hs : Follows s s) :
    Follows (s.inArm first body).2.2 s ∧
      ∀ id, (s.inArm first body).2.1 = some id → Opened (s.inArm first body).2.2.builder.nextBlock id := by
  let entered : Session := { s with builder := s.builder.enter first }
  have hmid : Follows (body entered).2 entered := hbody entered (.enter hs.built hfirst) le_rfl
  have hleft : (body entered).2.builder.popScope.Continues (leaveArm (body entered).2.builder).2 :=
    .of_grows (leaveArm_grows _ : Builder.Grows False _ _) hmid.closed.built hmid.closed.placed
  refine ⟨hmid.closed.trans hleft, fun id hid => ?_⟩
  exact (hmid.placed id hid).opened.mono ((Builder.nextBlock_popScope _).ge.trans hleft.nextBlock_le)

end Session

theorem answer_builds {α : Type} {b : Builder} {good : α → Builder → Prop} {op : Build α}
    {answer : α → Outcome} (h : BuildsOrFails False b good op) :
    BuildsOrFails False b anyAnswer (do return answer (← op)) :=
  BuildsOrFails.bind h fun _ _ _ _ => BuildsOrFails.pure trivial

def OpenedEnds (n : ℕ) (ends : ArmEnds) : Prop := ∀ id ∈ ends.ends, Opened n id

theorem opened_all {n : ℕ} {ends : ArmEnds} {onTrue onFalse : BlockId} (h : OpenedEnds n ends)
    (htrue : Opened n onTrue) (hfalse : Opened n onFalse) :
    ∀ id ∈ ends.all onTrue onFalse, Opened n id := by
  intro id hid
  rw [ArmEnds.all, List.mem_append, List.mem_append] at hid
  rcases hid with (hid | hid) | hid
  · exact h id hid
  · split at hid
    · simp at hid
    · exact List.mem_singleton.1 hid ▸ htrue
  · split at hid
    · simp at hid
    · exact List.mem_singleton.1 hid ▸ hfalse

variable {s : Session} {loops : List LoopBlocks} {steps : List Step}

theorem follows_start (table : TypeTable) (name : String) (captures : OrderedMap String TypeId) :
    Follows { table := table, builder := Builder.start name captures }
      { table := table, builder := Builder.start name captures } :=
  .refl (.start name captures) (Builder.placed_start name captures)

theorem branchThen_follows
    (hbody : ∀ s' : Session, Follows s' s' → s.builder.nextBlock ≤ s'.builder.nextBlock →
      Follows (runSteps loops steps s').2 s')
    (hs : Follows s s) : Follows (runStep loops (.branchThen steps) s).2 s := by
  obtain ⟨hopen, htrue, hfalse⟩ := extend_follows openArms_builds hs
  obtain ⟨harm, hlast⟩ := inArm_follows htrue
    (fun s' hs' hn => hbody s' hs' (hopen.nextBlock_le.trans hn)) (.refl hopen.built hopen.placed)
  refine hopen.trans (harm.trans (conclude_follows (joinArms_builds fun id hid => ?_)
    (.refl harm.built harm.placed)))
  rcases List.mem_append.1 hid with hid | hid
  · exact hlast id (Option.mem_toList.1 hid)
  · exact List.mem_singleton.1 hid ▸ (harm.holds hfalse).opened

theorem loop_follows {cond : List String}
    (hbody : ∀ (l : LoopBlocks) (s' : Session), Follows s' s' → OpenedLoop s'.builder.nextBlock l →
      s.builder.nextBlock ≤ s'.builder.nextBlock → Follows (runSteps (l :: loops) steps s').2 s')
    (hs : Follows s s) : Follows (runStep loops (.loop cond steps) s).2 s := by
  rw [runStep, Session.attempt, Session.extend]
  rcases enterLoop_spec False cond hs.placed with ⟨e, b', heq, hgrows⟩ |
    ⟨l, first, b', heq, hgrows, hheader, hexit, hfirst⟩
  · rw [heq]
    exact .of_grows hgrows hs.built hs.placed
  · rw [heq]
    have hopen : s.builder.Continues b' := .of_grows hgrows hs.built hs.placed
    let entered : Session := { s with builder := b'.enter first }
    have hsteps := hbody l entered (.enter hopen.built hfirst) ⟨hheader, hexit.opened⟩ hopen.nextBlock_le
    have hclosed : b'.Continues _ := hsteps.closed
    have hleft : Builder.Grows False _ _ := leaveLoop_grows hclosed.placed
      (hheader.mono hclosed.nextBlock_le) (hclosed.holds hexit)
    exact hopen.trans (hclosed.trans (.of_grows hleft hclosed.built hclosed.placed))

theorem scope_follows
    (hbody : ∀ s' : Session, Follows s' s' → s.builder.nextBlock ≤ s'.builder.nextBlock →
      Follows (runSteps loops steps s').2 s')
    (hs : Follows s s) : Follows (runStep loops (.scope steps) s).2 s := by
  obtain ⟨hgrows, hfirst⟩ : s.builder.Grows False _ ∧ _ := continueInBlock_builds hs.placed
  have hopen := Builder.Continues.of_grows hgrows hs.built hs.placed
  let entered : Session := { s with builder :=
    (continueInBlock none s.builder).2.enter (continueInBlock none s.builder).1 }
  have henter : s.extend enterScope = ((), entered) := by
    rw [Session.extend, enterScope_eq]
  have hsteps := hbody entered (.enter hopen.built hfirst) hopen.nextBlock_le
  have hclosed : Builder.Continues _ _ := hsteps.closed
  have hleft : Builder.Grows False _ _ := leaveScope_grows hclosed.placed
  rw [runStep, henter]
  exact hopen.trans (hclosed.trans (.of_grows hleft hclosed.built hclosed.placed))

theorem operand_follows {op : String}
    (hbody : ∀ s' : Session, Follows s' s' → s.builder.nextBlock ≤ s'.builder.nextBlock →
      Follows (runSteps loops steps s').2 s')
    (hs : Follows s s) : Follows (runStep loops (.operand op steps) s).2 s := by
  obtain ⟨henter, hj⟩ := attempt_follows (enterOperand_builds op) hs
  rw [runStep]
  split
  next heq =>
    rw [heq] at henter
    exact henter
  next join s' heq =>
    rw [heq] at henter hj
    have hsteps := hbody s' (.refl henter.built henter.placed) henter.nextBlock_le
    exact henter.trans (hsteps.trans (conclude_follows (leaveOperand_builds (hsteps.holds (hj join rfl)))
      (.refl hsteps.built hsteps.placed)))

theorem nested_follows {name : String} {captures : List String}
    (hbody : ∀ s' : Session, Follows s' s' → Follows (runSteps [] steps s').2 s')
    (hs : Follows s s) : Follows (runStep loops (.nested name captures steps) s).2 s := by
  have hcapture := (attempt_follows (capture_builds .empty captures) hs).1
  rw [runStep]
  split
  next heq =>
    rw [heq] at hcapture
    exact hcapture
  next types s' heq =>
    rw [heq] at hcapture
    let inner : Session := { table := s'.table, builder := Builder.start name types }
    have hinner := hbody inner (follows_start _ name types)
    let resumed : Session := { s' with table := (runSteps [] steps inner).2.table }
    have hresumed : Follows resumed resumed := .refl hcapture.built hcapture.placed
    exact hcapture.trans (extend_follows (addNested_builds hinner.built) hresumed).1

mutual

theorem runStep_follows (loops : List LoopBlocks) (step : Step) (s : Session) (hs : Follows s s)
    (hloops : ∀ l ∈ loops, OpenedLoop s.builder.nextBlock l) : Follows (runStep loops step s).2 s := by
  cases step with
  | param name type mode forwards =>
    exact withType_follows (fun id b => BuildsOrFails.bind (param_builds name id mode forwards)
      fun _ _ _ _ => BuildsOrFails.pure trivial) hs
  | declare name type => exact withType_follows (fun id b => answer_builds (declare_builds name id)) hs
  | access a ref => exact perform_follows (fun b => answer_builds (access_builds a ref)) hs
  | moveOut source target explicit viaForward =>
    exact withSource_follows (fun source b => answer_builds (moveOut_builds source False.elim _ _)) hs
  | tempMove type target =>
    exact withType_follows (fun id b => answer_builds (moveOut_builds _ False.elim _ _)) hs
  | call form args =>
    exact withSources_follows (fun args b => answer_builds (call_builds form 0 args)) hs
  | assign dest source explicit =>
    exact withSource_follows (fun source b => answer_builds (assign_builds dest source explicit)) hs
  | ret mode sources =>
    exact withSources_follows (fun sources b => answer_builds (ret_builds mode sources)) hs
  | label name => exact perform_follows (fun b => answer_builds (label_builds name)) hs
  | jump name => exact conclude_follows (jump_builds name) hs
  | jumpIf name => exact conclude_follows (jumpIf_builds name) hs
  | branch arms =>
    obtain ⟨hopen, htrue, hfalse⟩ := extend_follows openArms_builds hs
    obtain ⟨harms, hends⟩ := runArms_follows loops _ _ arms {} _ (.refl hopen.built hopen.placed)
      (fun l hl => (hloops l hl).mono hopen.nextBlock_le) htrue hfalse (fun id hid => by simp at hid)
    have hjoin := opened_all hends (harms.holds htrue).opened (harms.holds hfalse).opened
    exact hopen.trans (harms.trans (conclude_follows (joinArms_builds hjoin)
      (.refl harms.built harms.placed)))
  | branchThen steps =>
    exact branchThen_follows (fun s' hs' hn => runSteps_follows loops steps s' hs'
      fun l hl => (hloops l hl).mono hn) hs
  | loop cond steps =>
    exact loop_follows (fun l s' hs' hl hn => runSteps_follows (l :: loops) steps s' hs'
      (List.forall_mem_cons.2 ⟨hl, fun l' hl' => (hloops l' hl').mono hn⟩)) hs
  | breakLoop depth => exact withLoop_follows breakLoop_builds hloops hs
  | breakLoopIf depth => exact withLoop_follows breakLoopIf_builds hloops hs
  | continueLoop depth => exact withLoop_follows continueLoop_builds hloops hs
  | scope steps =>
    exact scope_follows (fun s' hs' hn => runSteps_follows loops steps s' hs'
      fun l hl => (hloops l hl).mono hn) hs
  | operand op steps =>
    exact operand_follows (fun s' hs' hn => runSteps_follows loops steps s' hs'
      fun l hl => (hloops l hl).mono hn) hs
  | nested name captures steps =>
    exact nested_follows (fun s' hs' => runSteps_follows [] steps s' hs' fun l hl => by simp at hl) hs
  | finish => exact .finish hs.built hs.placed

theorem runSteps_follows (loops : List LoopBlocks) (steps : List Step) (s : Session)
    (hs : Follows s s) (hloops : ∀ l ∈ loops, OpenedLoop s.builder.nextBlock l) :
    Follows (runSteps loops steps s).2 s := by
  cases steps with
  | nil => exact hs
  | cons step rest =>
    have hfirst := runStep_follows loops step s hs hloops
    have hrest := runSteps_follows loops rest _ (.refl hfirst.built hfirst.placed)
      fun l hl => (hloops l hl).mono hfirst.nextBlock_le
    exact hfirst.trans hrest

theorem runArm_follows (loops : List LoopBlocks) (onTrue onFalse : BlockId) (arm : Arm) (ends : ArmEnds)
    (s : Session) (hs : Follows s s) (hloops : ∀ l ∈ loops, OpenedLoop s.builder.nextBlock l)
    (htrue : s.builder.Holds onTrue) (hfalse : s.builder.Holds onFalse)
    (hends : OpenedEnds s.builder.nextBlock ends) :
    Follows (runArm loops onTrue onFalse arm ends s).2.2 s ∧
      OpenedEnds (runArm loops onTrue onFalse arm ends s).2.2.builder.nextBlock
        (runArm loops onTrue onFalse arm ends s).2.1 := by
  cases arm with
  | mk side steps =>
    have hfirst : s.builder.Holds (side.first onTrue onFalse) := by
      cases side with
      | onTrue => exact htrue
      | onFalse => exact hfalse
    obtain ⟨harm, hlast⟩ := inArm_follows hfirst (fun s' hs' hn => runSteps_follows loops steps s' hs'
      fun l hl => (hloops l hl).mono hn) hs
    refine ⟨harm, fun id hid => ?_⟩
    rcases List.mem_append.1 hid with hid | hid
    · exact (hends id hid).mono harm.nextBlock_le
    · exact hlast id (Option.mem_toList.1 hid)

theorem runArms_follows (loops : List LoopBlocks) (onTrue onFalse : BlockId) (arms : List Arm)
    (ends : ArmEnds) (s : Session) (hs : Follows s s)
    (hloops : ∀ l ∈ loops, OpenedLoop s.builder.nextBlock l)
    (htrue : s.builder.Holds onTrue) (hfalse : s.builder.Holds onFalse)
    (hends : OpenedEnds s.builder.nextBlock ends) :
    Follows (runArms loops onTrue onFalse arms ends s).2.2 s ∧
      OpenedEnds (runArms loops onTrue onFalse arms ends s).2.2.builder.nextBlock
        (runArms loops onTrue onFalse arms ends s).2.1 := by
  cases arms with
  | nil => exact ⟨hs, hends⟩
  | cons arm rest =>
    obtain ⟨hfirst, hends'⟩ := runArm_follows loops onTrue onFalse arm ends s hs hloops htrue hfalse hends
    obtain ⟨hrest, hends''⟩ := runArms_follows loops onTrue onFalse rest _ _
      (.refl hfirst.built hfirst.placed) (fun l hl => (hloops l hl).mono hfirst.nextBlock_le)
      (hfirst.holds htrue) (hfirst.holds hfalse) hends'
    exact ⟨hfirst.trans hrest, hends''⟩

end

/-- What a script builds is made by primitive steps, and has been finished. -/
theorem function_run (table : TypeTable) (name : String) (captures : OrderedMap String TypeId)
    (steps : List Step) :
    ∃ b : Builder, b.Built ∧ (run table name captures steps).function = b.finish.function :=
  ⟨_, (runSteps_follows [] steps { table := table, builder := Builder.start name captures }
    (follows_start table name captures) fun l hl => by simp at hl).built, rfl⟩

end Script
end MovePlan
