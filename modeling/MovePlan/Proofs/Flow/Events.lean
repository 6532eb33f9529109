import MovePlan.Flow.Script
import MovePlan.Proofs.Flow.Finished

set_option autoImplicit false

/-!
# Bracketed sequences of operations

A builder goes through events. Commands begin and end at once, and an error leaves what they had added
before. Constructs are entered and left, the innermost first; an error may end a construct early. One step
opens or closes at most one scope.
-/
namespace MovePlan.Construction
open Build Script

inductive Command
  | param (name : String) (type : TypeId) (mode : PassMode) (forwards : Bool)
  | declare (name : String) (type : TypeId)
  | access (access : Access) (ref : String)
  | moveOut (source : Source TypeId) (target : Target) (explicit viaForward : Bool)
  | call (form : CallForm) (args : List (Source TypeId))
  | assign (dest : String) (source : Source TypeId) (explicit : Bool)
  | ret (mode : PassMode) (sources : List (Source TypeId))
  | label (name : String)
  | jump (label : String)
  | jumpIf (label : String)
  | breakLoop (loop : ℕ)
  | breakLoopIf (loop : ℕ)
  | continueLoop (loop : ℕ)

def onLoop (loops : List LoopBlocks) (loop : ℕ) (op : LoopBlocks → Extend Unit) : Build Unit :=
  match loops[loop]? with
  | some l => op l
  | none => throw .noLoop

def Command.run (loops : List LoopBlocks) : Command → Build Unit
  | param name type mode forwards => Build.param name type mode forwards
  | declare name type => do let _ ← Build.declare name type
  | access a ref => do let _ ← Build.access a ref
  | moveOut source target explicit viaForward => do
      let _ ← Build.moveOut source (some target) explicit viaForward
  | call form args => do let _ ← Build.call form 0 args
  | assign dest source explicit => do let _ ← Build.assign dest source explicit
  | ret mode sources => do let _ ← Build.ret mode sources
  | label name => do let _ ← Build.label name
  | jump name => Build.jump name
  | jumpIf name => Build.jumpIf name
  | breakLoop loop => onLoop loops loop Build.breakLoop
  | breakLoopIf loop => onLoop loops loop Build.breakLoopIf
  | continueLoop loop => onLoop loops loop Build.continueLoop

/-- A construct that has been entered and not left. -/
inductive Frame
  | branch (onTrue onFalse : BlockId) (ends : ArmEnds)
  | arm (side : ArmSide)
  | loop (blocks : LoopBlocks)
  | scope
  | operand (join : BlockId)
  | nested (name : String) (types : OrderedMap String TypeId)

structure Progress where
  builder : Builder
  /-- The innermost construct stands first. -/
  frames : List Frame := []
  loops : List LoopBlocks := []

inductive Event
  | perform (command : Command)
  | enterBranch
  | enterArm (side : ArmSide)
  | enterLoop (cond : List String)
  | enterScope
  | enterOperand (op : String)
  | enterNested (name : String) (captures : List String)
  | leave
  /-- Leaves a nested function, the builder of which has gone through the events of the body. -/
  | leaveNested (body : List Event)
  /-- Leaves a construct because of an error, which is caught outside. -/
  | abandon

def start (name : String) (captures : OrderedMap String TypeId) : Progress :=
  { builder := Builder.start name captures }

def Progress.leaveArm (p : Progress) (side : ArmSide) (onTrue onFalse : BlockId) (ends : ArmEnds)
    (rest : List Frame) : Progress :=
  let (last, b) := Build.leaveArm p.builder
  let ends : ArmEnds := { ends := ends.ends ++ last.toList, entered := side :: ends.entered }
  { p with builder := b, frames := .branch onTrue onFalse ends :: rest }

mutual

/-- Nothing, where the event does not fit the constructs that are open. -/
def step (e : Event) (p : Progress) : Option Progress :=
  match e with
  | .perform c => some { p with builder := ((c.run p.loops).run p.builder).2 }
  | .enterBranch =>
    let ((onTrue, onFalse), b) := openArms p.builder
    some { p with builder := b, frames := .branch onTrue onFalse {} :: p.frames }
  | .enterArm side =>
    match p.frames with
    | .branch onTrue onFalse _ :: _ =>
      some { p with
        builder := (enterArm (side.first onTrue onFalse) p.builder).2
        frames := .arm side :: p.frames }
    | _ => none
  | .enterLoop cond =>
    match (enterLoop cond).run p.builder with
    | (.ok l, b) => some { builder := b, frames := .loop l :: p.frames, loops := p.loops ++ [l] }
    | (.error _, b) => some { p with builder := b }
  | .enterScope =>
    some { p with builder := (enterScope p.builder).2, frames := .scope :: p.frames }
  | .enterOperand op =>
    match (enterOperand op).run p.builder with
    | (.ok join, b) => some { p with builder := b, frames := .operand join :: p.frames }
    | (.error _, b) => some { p with builder := b }
  | .enterNested name captures =>
    match (capture .empty captures).run p.builder with
    | (.ok types, b) => some { p with builder := b, frames := .nested name types :: p.frames }
    | (.error _, b) => some { p with builder := b }
  | .leave =>
    match p.frames with
    | .branch onTrue onFalse ends :: rest =>
      some { p with builder := (joinArms (ends.all onTrue onFalse) p.builder).2, frames := rest }
    | .arm side :: .branch onTrue onFalse ends :: rest => some (p.leaveArm side onTrue onFalse ends rest)
    | .loop l :: rest => some { p with builder := (leaveLoop l p.builder).2, frames := rest }
    | .scope :: rest => some { p with builder := (leaveScope p.builder).2, frames := rest }
    | .operand join :: rest => some { p with builder := (leaveOperand join p.builder).2, frames := rest }
    | _ => none
  | .leaveNested body =>
    match p.frames with
    | .nested name types :: rest =>
      match run body (start name types) with
      | some { builder := inner, frames := [], .. } =>
        some { p with builder := (addNested inner.finish.function p.builder).2, frames := rest }
      | _ => none
    | _ => none
  | .abandon =>
    match p.frames with
    | .arm side :: .branch onTrue onFalse ends :: rest => some (p.leaveArm side onTrue onFalse ends rest)
    | .loop _ :: rest | .scope :: rest => some { p with builder := p.builder.popScope, frames := rest }
    | .branch .. :: rest | .operand _ :: rest | .nested .. :: rest => some { p with frames := rest }
    | _ => none

/-- Nothing, where the events are not bracketed well. -/
def run (events : List Event) (p : Progress) : Option Progress :=
  match events with
  | [] => some p
  | e :: rest =>
    match step e p with
    | some q => run rest q
    | none => none

end

/-- The open constructs and the open scopes belong together. Where a construct will go on when it is left
lies in the scopes around it. -/
inductive Framed (n : ℕ) : List Frame → List OpenScope → Prop
  | nil : Framed n [] []
  | branch {onTrue onFalse : BlockId} {ends : ArmEnds} {frames : List Frame} {scopes : List OpenScope}
      (htrue : Within n scopes onTrue) (hfalse : Within n scopes onFalse) (hends : OpenedEnds n ends)
      (h : Framed n frames scopes) : Framed n (.branch onTrue onFalse ends :: frames) scopes
  | arm {onTrue onFalse : BlockId} {ends : ArmEnds} {frames : List Frame} {scopes : List OpenScope}
      (side : ArmSide) (o : OpenScope) (h : Framed n (.branch onTrue onFalse ends :: frames) scopes) :
      Framed n (.arm side :: .branch onTrue onFalse ends :: frames) (o :: scopes)
  | loop {l : LoopBlocks} {frames : List Frame} {scopes : List OpenScope} (o : OpenScope)
      (hheader : Opened n l.header) (hexit : Within n scopes l.exit) (h : Framed n frames scopes) :
      Framed n (.loop l :: frames) (o :: scopes)
  | scope {frames : List Frame} {scopes : List OpenScope} (o : OpenScope) (h : Framed n frames scopes) :
      Framed n (.scope :: frames) (o :: scopes)
  | operand {join : BlockId} {frames : List Frame} {scopes : List OpenScope}
      (hjoin : Within n scopes join) (h : Framed n frames scopes) :
      Framed n (.operand join :: frames) scopes
  | nested {frames : List Frame} {scopes : List OpenScope} (name : String)
      (types : OrderedMap String TypeId) (h : Framed n frames scopes) :
      Framed n (.nested name types :: frames) scopes

theorem Framed.mono {n k : ℕ} {frames : List Frame} {scopes scopes' : List OpenScope}
    (h : Framed n frames scopes) (hk : n ≤ k) (hs : Widened scopes scopes') :
    Framed k frames scopes' := by
  induction h generalizing scopes' with
  | nil =>
    cases hs
    exact .nil
  | branch htrue hfalse hends _ ih =>
    exact .branch (htrue.mono hk hs) (hfalse.mono hk hs) (fun id hid => (hends id hid).mono hk) (ih hs)
  | arm side _ _ ih =>
    cases hs with
    | cons _ hs => exact .arm side _ (ih hs)
  | loop _ hheader hexit _ ih =>
    cases hs with
    | cons _ hs => exact .loop _ (hheader.mono hk) (hexit.mono hk hs) (ih hs)
  | scope _ _ ih =>
    cases hs with
    | cons _ hs => exact .scope _ (ih hs)
  | operand hjoin _ ih => exact .operand (hjoin.mono hk hs) (ih hs)
  | nested name types _ ih => exact .nested name types (ih hs)

theorem Framed.eq_nil {n : ℕ} {scopes : List OpenScope} (h : Framed n [] scopes) : scopes = [] := by
  cases h
  rfl

structure Steady (p : Progress) : Prop where
  sound : p.builder.Sound
  framed : Framed p.builder.nextBlock p.frames p.builder.scopes
  loops : ∀ l ∈ p.loops, OpenedLoop p.builder.nextBlock l

theorem steady_start (name : String) (captures : OrderedMap String TypeId) :
    Steady (start name captures) where
  sound := Builder.sound_start name captures
  framed := .nil
  loops l hl := by simp [start] at hl

/-- What one event can do to a builder: it adds to it, and it may then open a scope, or it closes a scope
before. -/
inductive Turn (b b' : Builder) : Prop
  | grow (h : b.Grows True b')
  | enter {c : Builder} {first : BlockId} (h : b.Grows True c) (hfirst : c.Holds first)
      (heq : b' = c.enter first)
  | leave (h : b.popScope.Grows True b')

theorem Turn.sound {b b' : Builder} (h : Turn b b') (hb : b.Sound) : b'.Sound := by
  cases h with
  | grow h => exact hb.grows h
  | enter h hfirst heq => exact heq ▸ (hb.grows h).enter hfirst
  | leave h => exact hb.pop.grows h

theorem Command.builds (c : Command) {loops : List LoopBlocks} {b : Builder}
    (hloops : ∀ l ∈ loops, OpenedLoop b.nextBlock l) :
    BuildsOrFails True b anyAnswer (c.run loops) := by
  have hloop : ∀ (loop : ℕ) {op : LoopBlocks → Extend Unit},
      (∀ {l : LoopBlocks}, OpenedLoop b.nextBlock l → Builds True b anyAnswer (op l)) →
      BuildsOrFails True b anyAnswer (onLoop loops loop op) := by
    intro loop op hop
    rw [onLoop]
    split
    next l hl => exact BuildsOrFails.lift (hop (hloops l (List.mem_of_getElem? hl)))
    next => exact BuildsOrFails.throw
  have hdrop : ∀ {α : Type} {op : Build α}, BuildsOrFails True b anyAnswer op →
      BuildsOrFails True b anyAnswer (do let _ ← op) := fun hop =>
    BuildsOrFails.bind hop fun _ _ _ _ => BuildsOrFails.pure trivial
  cases c with
  | param name type mode forwards => exact param_builds name type mode forwards
  | declare name type => exact hdrop (declare_builds name type)
  | access a ref => exact hdrop (access_builds a ref)
  | moveOut source target explicit viaForward =>
    exact hdrop (moveOut_builds source (fun _ => rfl) explicit viaForward)
  | call form args => exact hdrop (call_builds form 0 args)
  | assign dest source explicit => exact hdrop (assign_builds dest source explicit)
  | ret mode sources => exact hdrop (ret_builds mode sources)
  | label name => exact hdrop (label_builds name)
  | jump name => exact BuildsOrFails.lift (jump_builds name)
  | jumpIf name => exact BuildsOrFails.lift (jumpIf_builds name)
  | breakLoop loop => exact hloop loop breakLoop_builds
  | breakLoopIf loop => exact hloop loop breakLoopIf_builds
  | continueLoop loop => exact hloop loop continueLoop_builds

section Frames
variable {n : ℕ} {frames : List Frame} {scopes : List OpenScope}

theorem Framed.of_branch {onTrue onFalse : BlockId} {ends : ArmEnds}
    (h : Framed n (.branch onTrue onFalse ends :: frames) scopes) : Within n scopes onTrue ∧
      Within n scopes onFalse ∧ OpenedEnds n ends ∧ Framed n frames scopes := by
  cases h with
  | branch htrue hfalse hends h => exact ⟨htrue, hfalse, hends, h⟩

theorem Framed.of_arm {side : ArmSide} (h : Framed n (.arm side :: frames) scopes) :
    Framed n frames scopes.tail := by
  cases h with
  | arm _ _ h => exact h

theorem Framed.of_loop {l : LoopBlocks} (h : Framed n (.loop l :: frames) scopes) :
    Opened n l.header ∧ Within n scopes.tail l.exit ∧ Framed n frames scopes.tail := by
  cases h with
  | loop _ hheader hexit h => exact ⟨hheader, hexit, h⟩

theorem Framed.of_scope (h : Framed n (.scope :: frames) scopes) : Framed n frames scopes.tail := by
  cases h with
  | scope _ h => exact h

theorem Framed.of_operand {join : BlockId} (h : Framed n (.operand join :: frames) scopes) :
    Within n scopes join ∧ Framed n frames scopes := by
  cases h with
  | operand hjoin h => exact ⟨hjoin, h⟩

theorem Framed.of_nested {name : String} {types : OrderedMap String TypeId}
    (h : Framed n (.nested name types :: frames) scopes) : Framed n frames scopes := by
  cases h with
  | nested _ _ h => exact h

end Frames

def Advances (p q : Progress) : Prop := Turn p.builder q.builder ∧ Steady q

section Step
variable {p : Progress} {frames : List Frame} {b : Builder}

theorem Steady.framed_of_eq (hp : Steady p) (h : p.frames = frames) :
    Framed p.builder.nextBlock frames p.builder.scopes :=
  h ▸ hp.framed

theorem Steady.grow (hp : Steady p) (hf : Framed p.builder.nextBlock frames p.builder.scopes)
    (hg : p.builder.Grows True b) : Advances p { p with builder := b, frames := frames } := by
  have hturn : Turn p.builder b := .grow hg
  exact ⟨hturn, hturn.sound hp.sound, hf.mono hg.nextBlock_le hg.widened,
    fun l hl => (hp.loops l hl).mono hg.nextBlock_le⟩

theorem Steady.push (hp : Steady p) (hg : p.builder.Grows True b) {frame : Frame}
    (hf : Framed b.nextBlock p.frames b.scopes → Framed b.nextBlock (frame :: p.frames) b.scopes) :
    Advances p { p with builder := b, frames := frame :: p.frames } := by
  have hgrown := hp.grow hp.framed hg
  exact ⟨hgrown.1, hgrown.2.sound, hf hgrown.2.framed, hgrown.2.loops⟩

theorem Steady.close (hp : Steady p) (hf : Framed p.builder.nextBlock frames p.builder.scopes.tail)
    (hg : p.builder.popScope.Grows True b) : Advances p { p with builder := b, frames := frames } := by
  have hturn : Turn p.builder b := .leave hg
  have hn : p.builder.nextBlock ≤ b.nextBlock := p.builder.nextBlock_popScope.ge.trans hg.nextBlock_le
  refine ⟨hturn, hturn.sound hp.sound, hf.mono hn ?_, fun l hl => (hp.loops l hl).mono hn⟩
  exact p.builder.scopes_popScope ▸ hg.widened

theorem Steady.open (hp : Steady p) {l : List LoopBlocks} {first : BlockId}
    (hg : p.builder.Grows True b) (hfirst : b.Holds first)
    (hf : Framed b.nextBlock frames (b.enter first).scopes) (hl : ∀ x ∈ l, OpenedLoop b.nextBlock x) :
    Advances p { builder := b.enter first, frames := frames, loops := l } := by
  have hturn : Turn p.builder (b.enter first) := .enter hg hfirst rfl
  exact ⟨hturn, hturn.sound hp.sound, hf, hl⟩

theorem Steady.leaveArm (hp : Steady p) {side : ArmSide} {onTrue onFalse : BlockId} {ends : ArmEnds}
    (hframes : p.frames = .arm side :: .branch onTrue onFalse ends :: frames) :
    Advances p (p.leaveArm side onTrue onFalse ends frames) := by
  obtain ⟨htrue, hfalse, hends, hf⟩ := (hp.framed_of_eq hframes).of_arm.of_branch
  refine hp.close (.branch htrue hfalse (fun id hid => ?_) hf) (leaveArm_grows p.builder)
  rcases List.mem_append.1 hid with hid | hid
  · exact hends id hid
  · exact (hp.sound.placed id (Option.mem_toList.1 hid)).opened

end Step

section Events
variable {p q : Progress}

theorem enterBranch_advances (hp : Steady p) (h : step .enterBranch p = some q) : Advances p q := by
  obtain ⟨hg, htrue, hfalse⟩ : p.builder.Grows True _ ∧ _ := openArms_builds hp.sound.placed
  rw [step] at h
  generalize openArms p.builder = r at *
  obtain ⟨⟨onTrue, onFalse⟩, b⟩ := r
  obtain rfl := Option.some.inj h
  exact hp.push hg fun hf => .branch htrue hfalse (fun id hid => by simp at hid) hf

theorem enterArm_advances {side : ArmSide} (hp : Steady p) (h : step (.enterArm side) p = some q) :
    Advances p q := by
  rw [step] at h
  split at h
  next onTrue onFalse ends rest hframes =>
    obtain rfl := Option.some.inj h
    have hf := hp.framed_of_eq hframes
    have hfirst : p.builder.Holds (side.first onTrue onFalse) := by
      cases side with
      | onTrue => exact hf.of_branch.1
      | onFalse => exact hf.of_branch.2.1
    refine hp.open (.refl _) hfirst ?_ hp.loops
    rw [hframes]
    exact .arm side _ hf
  next => cases h

theorem enterLoop_advances {cond : List String} (hp : Steady p)
    (h : step (.enterLoop cond) p = some q) : Advances p q := by
  rw [step] at h
  rcases enterLoop_spec True cond hp.sound.placed with
    ⟨e, b, heq, hg⟩ | ⟨l, first, b, heq, hg, hheader, hexit, hfirst⟩
  · rw [heq, Option.some.injEq] at h
    subst h
    exact hp.grow hp.framed hg
  · rw [heq, Option.some.injEq] at h
    subst h
    have hgrown := (hp.grow hp.framed hg).2
    refine hp.open hg hfirst (.loop _ hheader hexit hgrown.framed) fun x hx => ?_
    rcases List.mem_append.1 hx with hx | hx
    · exact hgrown.loops x hx
    · exact List.mem_singleton.1 hx ▸ ⟨hheader, hexit.opened⟩

theorem enterScope_advances (hp : Steady p) (h : step .enterScope p = some q) : Advances p q := by
  obtain ⟨hg, hfirst⟩ : p.builder.Grows True _ ∧ _ := continueInBlock_builds hp.sound.placed
  rw [step, enterScope_eq, Option.some.injEq] at h
  subst h
  have hgrown := (hp.grow hp.framed hg).2
  exact hp.open hg hfirst (.scope _ hgrown.framed) hgrown.loops

theorem enterOperand_advances {op : String} (hp : Steady p) (h : step (.enterOperand op) p = some q) :
    Advances p q := by
  obtain ⟨hg, hjoin⟩ : p.builder.Grows True _ ∧ _ := enterOperand_builds op hp.sound.placed
  rw [step] at h
  generalize (enterOperand op).run p.builder = r at *
  obtain ⟨r, b⟩ := r
  cases r with
  | error e =>
    obtain rfl := Option.some.inj h
    exact hp.grow hp.framed hg
  | ok join =>
    obtain rfl := Option.some.inj h
    exact hp.push hg fun hf => .operand (hjoin join rfl) hf

theorem enterNested_advances {name : String} {captures : List String} (hp : Steady p)
    (h : step (.enterNested name captures) p = some q) : Advances p q := by
  obtain ⟨hg, -⟩ : p.builder.Grows True _ ∧ _ := capture_builds .empty captures hp.sound.placed
  rw [step] at h
  generalize (capture .empty captures).run p.builder = r at *
  obtain ⟨r, b⟩ := r
  cases r with
  | error e =>
    obtain rfl := Option.some.inj h
    exact hp.grow hp.framed hg
  | ok types =>
    obtain rfl := Option.some.inj h
    exact hp.push hg fun hf => .nested name types hf

theorem leave_advances (hp : Steady p) (h : step .leave p = some q) : Advances p q := by
  have hplaced := hp.sound.placed
  rw [step] at h
  split at h
  next onTrue onFalse ends rest hframes =>
    obtain rfl := Option.some.inj h
    obtain ⟨htrue, hfalse, hends, hf⟩ := (hp.framed_of_eq hframes).of_branch
    exact hp.grow hf (joinArms_builds (opened_all hends htrue.opened hfalse.opened) hplaced).1
  next side onTrue onFalse ends rest hframes =>
    obtain rfl := Option.some.inj h
    exact hp.leaveArm hframes
  next l rest hframes =>
    obtain rfl := Option.some.inj h
    obtain ⟨hheader, hexit, hf⟩ := (hp.framed_of_eq hframes).of_loop
    refine hp.close hf (leaveLoop_grows hplaced.popScope ?_ ?_)
    · rwa [Builder.nextBlock_popScope]
    · rwa [Builder.Holds, Builder.nextBlock_popScope, Builder.scopes_popScope]
  next rest hframes =>
    obtain rfl := Option.some.inj h
    exact hp.close (hp.framed_of_eq hframes).of_scope (leaveScope_grows hplaced.popScope)
  next join rest hframes =>
    obtain rfl := Option.some.inj h
    obtain ⟨hjoin, hf⟩ := (hp.framed_of_eq hframes).of_operand
    exact hp.grow hf (leaveOperand_builds hjoin hplaced).1
  next => cases h

theorem abandon_advances (hp : Steady p) (h : step .abandon p = some q) : Advances p q := by
  rw [step] at h
  split at h
  next side onTrue onFalse ends rest hframes =>
    obtain rfl := Option.some.inj h
    exact hp.leaveArm hframes
  next l rest hframes =>
    obtain rfl := Option.some.inj h
    exact hp.close (hp.framed_of_eq hframes).of_loop.2.2 (.refl _)
  next rest hframes =>
    obtain rfl := Option.some.inj h
    exact hp.close (hp.framed_of_eq hframes).of_scope (.refl _)
  next onTrue onFalse ends rest hframes =>
    obtain rfl := Option.some.inj h
    exact hp.grow (hp.framed_of_eq hframes).of_branch.2.2.2 (.refl _)
  next join rest hframes =>
    obtain rfl := Option.some.inj h
    exact hp.grow (hp.framed_of_eq hframes).of_operand.2 (.refl _)
  next name types rest hframes =>
    obtain rfl := Option.some.inj h
    exact hp.grow (hp.framed_of_eq hframes).of_nested (.refl _)
  next => cases h

end Events

mutual

theorem step_advances (e : Event) {p q : Progress} (hp : Steady p) (h : step e p = some q) :
    Advances p q := by
  cases e with
  | perform c =>
    rw [step, Option.some.injEq] at h
    subst h
    exact hp.grow hp.framed (c.builds hp.loops hp.sound.placed).1
  | enterBranch => exact enterBranch_advances hp h
  | enterArm side => exact enterArm_advances hp h
  | enterLoop cond => exact enterLoop_advances hp h
  | enterScope => exact enterScope_advances hp h
  | enterOperand op => exact enterOperand_advances hp h
  | enterNested name captures => exact enterNested_advances hp h
  | leave => exact leave_advances hp h
  | leaveNested body =>
    rw [step] at h
    split at h
    next name types rest hframes =>
      split at h
      next inner loops hinner =>
        obtain rfl := Option.some.inj h
        have hbody := run_steady body (steady_start name types) hinner
        exact hp.grow (hp.framed_of_eq hframes).of_nested
          (addNested_builds hbody.sound.built hp.sound.placed).1
      next => cases h
    next => cases h
  | abandon => exact abandon_advances hp h

theorem run_steady (events : List Event) {p q : Progress} (hp : Steady p) (h : run events p = some q) :
    Steady q := by
  cases events with
  | nil =>
    rw [run, Option.some.injEq] at h
    exact h ▸ hp
  | cons e rest =>
    rw [run] at h
    split at h
    next m hm => exact run_steady rest (step_advances e hp hm).2 h
    next => cases h

end

/-- The function comes out of a builder, whatever the builder has gone through. -/
def Makes (f : Function) : Prop :=
  ∃ name captures events p, run events (start name captures) = some p ∧ p.builder.finish.function = f

theorem Makes.declaredOnce {f : Function} (h : Makes f) : f.DeclaredOnce := by
  obtain ⟨name, captures, events, p, hrun, rfl⟩ := h
  exact (run_steady events (steady_start name captures) hrun).sound.built.tidy.finish.declared

end MovePlan.Construction
