import MovePlan.Proofs.Flow.Growth

set_option autoImplicit false

namespace MovePlan
namespace Builder

def goOn (before : Option BlockId) (id : BlockId) (b : Builder) : Builder :=
  match before with
  | some src => (b.addEdge src id .normal none).moveTo (some id)
  | none => b.moveTo (some id)

theorem goOn_labels (labels : List (String × BlockId)) (before : Option BlockId) (id : BlockId)
    (b : Builder) :
    { b.goOn before id with labels := labels } = { b with labels := labels : Builder }.goOn before id := by
  cases before <;> rfl

theorem labels_goOn (before : Option BlockId) (id : BlockId) (b : Builder) :
    (b.goOn before id).labels = b.labels := by
  cases before <;> rfl

theorem goOn_grows {strict : Prop} {b : Builder} {before : Option BlockId} {id : BlockId}
    (hbefore : ∀ {src : BlockId}, before = some src → Opened b.nextBlock src) (hid : b.Holds id) :
    b.Grows strict (b.goOn before id) := by
  cases before with
  | some src =>
    have hedge : Primitive strict b (b.addEdge src id .normal none) :=
      .addEdge (hbefore rfl) hid.opened (by simp)
    exact hedge.grows.step (.moveTo fun _ hx => Option.some.inj hx ▸ hid)
  | none => exact (Primitive.moveTo fun _ hx => Option.some.inj hx ▸ hid).grows

end Builder

namespace Build
variable {strict : Prop} {b : Builder}

theorem openBlock_builds : Builds strict b (fun id b' => b'.Holds id) (openBlock none) :=
  fun _ => ⟨Builder.Primitive.openBlock.grows, b.holds_openBlock none⟩

theorem addEdge_builds {src dst : BlockId} {kind : EdgeKind} (hsrc : Opened b.nextBlock src)
    (hdst : Opened b.nextBlock dst) (hk : kind ≠ .jump) :
    Builds strict b anyAnswer (addEdge src dst kind none) :=
  Builds.modify fun _ => (Builder.Primitive.addEdge hsrc hdst hk).grows

theorem moveTo_some_builds {id : BlockId} (h : b.Holds id) :
    Builds strict b anyAnswer (moveTo (some id)) :=
  Builds.modify fun _ => (Builder.Primitive.moveTo fun _ hx => Option.some.inj hx ▸ h).grows

theorem moveTo_none_builds : Builds strict b anyAnswer (moveTo none) :=
  Builds.modify fun _ => (Builder.Primitive.moveTo fun _ hx => by cases hx).grows

theorem currentBlock_of_some {id : BlockId} (h : b.current = some id) : currentBlock b = (id, b) := by
  cases b
  cases h
  rfl

theorem currentBlock_of_none (h : b.current = none) :
    currentBlock b = ((b.openBlock none).1, (b.openBlock none).2.moveTo (some (b.openBlock none).1)) := by
  cases b
  cases h
  rfl

theorem current_currentBlock (b : Builder) : (currentBlock b).2.current = some (currentBlock b).1 := by
  cases h : b.current with
  | some id => rw [currentBlock_of_some h, h]
  | none => rw [currentBlock_of_none h]; rfl

theorem currentBlock_grows (b : Builder) : b.Grows strict (currentBlock b).2 := by
  cases h : b.current with
  | some id =>
    rw [currentBlock_of_some h]
    exact .refl b
  | none =>
    rw [currentBlock_of_none h]
    refine Builder.Primitive.openBlock.grows.step (.moveTo fun _ hx => ?_)
    exact Option.some.inj hx ▸ b.holds_openBlock none

theorem currentBlock_builds : Builds strict b (fun id b' => b'.Holds id) currentBlock := by
  intro hb
  have hgrows : b.Grows strict (currentBlock b).2 := currentBlock_grows b
  exact ⟨hgrows, hgrows.placed hb _ (current_currentBlock b)⟩

theorem continueInBlock_eq (label : Option String) (b : Builder) :
    continueInBlock label b =
      ((b.openBlock label).1, (b.openBlock label).2.goOn b.current (b.openBlock label).1) := by
  cases h : b.current with
  | some src =>
    cases b
    cases h
    rfl
  | none =>
    cases b
    cases h
    rfl

theorem continueInBlock_builds : Builds strict b (fun id b' => b'.Holds id) (continueInBlock none) := by
  intro hb
  rw [continueInBlock_eq]
  have hopen : b.Grows strict (b.openBlock none).2 := Builder.Primitive.openBlock.grows
  have hnew := b.holds_openBlock none
  have hgo : (b.openBlock none).2.Grows strict _ :=
    Builder.goOn_grows (fun hsrc => hopen.opened (hb _ hsrc).opened) hnew
  exact ⟨hopen.trans hgo, hgo.holds hnew⟩

theorem addSite_eq (s : Site) (b : Builder) :
    addSite s b = ((currentBlock b).2.placed (currentBlock b).1 s,
      (currentBlock b).2.putSite (currentBlock b).1 s) := rfl

theorem addSite_builds {s : Site} (hk : s.kind ≠ .decl) (hs : s.Complete strict) :
    Builds strict b anyAnswer (addSite s) := by
  intro _
  rw [addSite_eq]
  exact ⟨(currentBlock_grows b).step (.access (current_currentBlock b) hk hs), trivial⟩

theorem currentBlock_putLocal (name : String) (type : TypeId) (b : Builder) :
    currentBlock (b.putLocal name type) =
      ((currentBlock b).1, (currentBlock b).2.putLocal name type) := by
  cases h : b.current with
  | some id =>
    have h' : (b.putLocal name type).current = some id := h
    rw [currentBlock_of_some h, currentBlock_of_some h']
  | none =>
    have h' : (b.putLocal name type).current = none := h
    rw [currentBlock_of_none h, currentBlock_of_none h']
    cases hs : b.scopes with
    | nil => simp [Builder.openBlock, Builder.putLocal, Builder.moveTo, hs]
    | cons s rest => simp [Builder.openBlock, Builder.putLocal, Builder.moveTo, hs]

theorem binding?_currentBlock (b : Builder) (name : String) :
    (currentBlock b).2.function.binding? name = b.function.binding? name := by
  cases h : b.current with
  | some id => rw [currentBlock_of_some h]
  | none => rw [currentBlock_of_none h]; rfl

theorem requireFresh_eq (name : String) (b : Builder) :
    (requireFresh name).run b = (if b.function.bindings.contains name then
      .error (.duplicateBinding name b.function.name) else .ok (), b) := by
  change (if b.function.bindings.contains name = true then
    (throw (.duplicateBinding name b.function.name) : Build Unit) else pure ()).run b = _
  split <;> rfl

theorem requireFresh_builds {α : Type} {good : α → Builder → Prop} {name : String} {next : Build α}
    (h : b.function.binding? name = none → BuildsOrFails strict b good next) :
    BuildsOrFails strict b good (do requireFresh name; next) := by
  intro hb
  have hrun : (do requireFresh name; next : Build α).run b =
      if b.function.bindings.contains name then (.error (.duplicateBinding name b.function.name), b)
      else next.run b := by
    change (ExceptT.bindCont (fun _ => next) ((requireFresh name).run b).1 : Extend _)
      ((requireFresh name).run b).2 = _
    rw [requireFresh_eq]
    split <;> rfl
  rw [hrun]
  split
  next => exact ⟨.refl b, fun a ha => by cases ha⟩
  next hc =>
    refine h ?_ hb
    rwa [OrderedMap.contains, Bool.not_eq_true, Option.isSome_eq_false_iff, Option.isNone_iff_eq_none] at hc

theorem declare_builds (name : String) (type : TypeId) :
    BuildsOrFails strict b anyAnswer (declare name type) := by
  refine requireFresh_builds fun hfresh _ => ?_
  have h : addSite (unplaced .decl (some name)) (b.putLocal name type) = _ :=
    addSite_eq (unplaced .decl (some name)) (b.putLocal name type)
  rw [currentBlock_putLocal] at h
  have hstep : Builder.Primitive strict (currentBlock b).2 _ :=
    .declare type (current_currentBlock b) ((binding?_currentBlock b name).trans hfresh)
  refine ⟨?_, fun _ _ => trivial⟩
  change b.Grows strict (addSite (unplaced .decl (some name)) (b.putLocal name type)).2
  rw [h]
  exact (currentBlock_grows b).step hstep

theorem param_builds (name : String) (type : TypeId) (mode : PassMode) (forwards : Bool) :
    BuildsOrFails strict b anyAnswer (param name type mode forwards) := by
  refine requireFresh_builds fun hfresh => ?_
  by_cases hbad : (forwards && decide (mode ≠ .moveRef)) = true
  · rw [if_pos hbad]
    exact BuildsOrFails.throw_bind
  · rw [if_neg hbad]
    refine fun _ => ⟨?_, fun _ _ => trivial⟩
    change b.Grows strict (b.putParam name type mode forwards)
    exact (Builder.Primitive.param type hfresh fun hf => by simpa [hf] using hbad).grows

theorem place_builds (ref : String) : BuildsOrFails strict b anyAnswer (place ref) := by
  rw [place]
  split
  · exact BuildsOrFails.pure trivial
  · exact BuildsOrFails.throw

theorem access_builds (a : Access) (ref : String) : BuildsOrFails strict b anyAnswer (access a ref) := by
  refine BuildsOrFails.bind (place_builds ref) fun p b' _ _ => ?_
  refine BuildsOrFails.lift (addSite_builds ?_ ⟨fun hn => (by cases hn), fun _ hk => ?_⟩)
  · cases a <;> simp [unplaced, Access.kind]
  · cases a <;> cases hk

theorem moveOut_builds (source : Source TypeId) {target : Option Target}
    (ht : strict → target.isSome = true) (explicit viaForward : Bool) :
    BuildsOrFails strict b anyAnswer (moveOut source target explicit viaForward) := by
  cases source with
  | temp type =>
    exact BuildsOrFails.lift (addSite_builds (by simp [unplaced]) ⟨fun _ => ⟨rfl, rfl⟩, fun h _ => ht h⟩)
  | place ref =>
    refine BuildsOrFails.bind (place_builds ref) fun p b' _ _ => ?_
    refine BuildsOrFails.lift (addSite_builds (by simp [unplaced]) ⟨fun hn => ?_, fun h _ => ht h⟩)
    cases hn

theorem call_builds (c : CallForm) (index : ℕ) (args : List (Source TypeId)) :
    BuildsOrFails strict b anyAnswer (call c index args) := by
  induction args generalizing b index with
  | nil => exact BuildsOrFails.pure trivial
  | cons arg rest ih =>
    rw [call]
    cases c.mode? index with
    | none => exact BuildsOrFails.throw_bind
    | some mode =>
      refine BuildsOrFails.pure_bind ?_
      refine BuildsOrFails.bind (moveOut_builds arg (fun _ => rfl) _ _) fun site _ _ _ => ?_
      refine BuildsOrFails.bind (ih _) fun sites _ _ _ => ?_
      exact BuildsOrFails.pure trivial

theorem assign_builds (dest : String) (source : Source TypeId) (explicit : Bool) :
    BuildsOrFails strict b anyAnswer (assign dest source explicit) := by
  refine BuildsOrFails.bind (place_builds dest) fun p _ _ _ => ?_
  refine BuildsOrFails.bind (moveOut_builds _ (fun _ => rfl) _ _) fun _ _ _ _ => ?_
  exact access_builds .write dest

theorem returnAll_builds (mode : PassMode) (sources : List (Source TypeId)) :
    BuildsOrFails strict b anyAnswer (returnAll mode sources) := by
  induction sources generalizing b with
  | nil => exact BuildsOrFails.pure trivial
  | cons source rest ih =>
    refine BuildsOrFails.bind (moveOut_builds _ (fun _ => rfl) _ _) fun site _ _ _ => ?_
    refine BuildsOrFails.bind ih fun sites _ _ _ => ?_
    exact BuildsOrFails.pure trivial

theorem ret_builds (mode : PassMode) (sources : List (Source TypeId)) :
    BuildsOrFails strict b anyAnswer (ret mode sources) := by
  refine BuildsOrFails.bind (returnAll_builds mode sources) fun sites _ _ _ => ?_
  refine BuildsOrFails.bind (BuildsOrFails.lift currentBlock_builds) fun _ _ _ _ => ?_
  refine BuildsOrFails.bind (BuildsOrFails.lift moveTo_none_builds) fun _ _ _ _ => ?_
  exact BuildsOrFails.pure trivial

theorem label_builds (name : String) : BuildsOrFails strict b anyAnswer (label name) := by
  intro hb
  let after := continueInBlock (some name) b
  have hrun : (label name).run b = (if (lastWrite name b.labels).isSome then
      (throw (.duplicateLabel name b.function.name) : Build BlockId).run b
    else (.ok after.1, { after.2 with labels := after.2.labels ++ [(name, after.1)] })) := by
    change (if (lastWrite name b.labels).isSome then
      (throw (.duplicateLabel name b.function.name) : Build BlockId)
      else (do
        let id ← continueInBlock (some name)
        modify fun b => { b with labels := b.labels ++ [(name, id)] }
        return id)).run b = _
    split <;> rfl
  have hfails : BuildsOrFails strict b anyAnswer
    (throw (.duplicateLabel name b.function.name) : Build BlockId) := BuildsOrFails.throw
  rw [hrun]
  split
  · exact hfails hb
  next hfresh =>
    refine ⟨?_, fun _ _ => trivial⟩
    rw [Bool.not_eq_true, Option.isSome_eq_false_iff, Option.isNone_iff_eq_none] at hfresh
    have hlabel : b.Grows strict _ := (Builder.Primitive.label hfresh).grows
    have hnew := b.holds_openBlock (some name)
    change b.Grows strict { after.2 with labels := after.2.labels ++ [(name, after.1)] }
    rw [show after = _ from continueInBlock_eq (some name) b, Builder.labels_goOn, Builder.goOn_labels]
    exact hlabel.trans (Builder.goOn_grows (fun hsrc => hlabel.opened (hb _ hsrc).opened) hnew)

theorem addJump_builds {src : BlockId} (h : Opened b.nextBlock src) (name : String) :
    Builds strict b anyAnswer (addJump src name) :=
  Builds.modify fun _ => (Builder.Primitive.jump name h).grows

theorem jump_builds (name : String) : Builds strict b anyAnswer (jump name) := by
  refine Builds.bind currentBlock_builds fun src b₁ _ hsrc => ?_
  refine Builds.bind (addJump_builds hsrc.opened name) fun _ _ _ _ => ?_
  exact moveTo_none_builds

theorem jumpIf_builds (name : String) : Builds strict b anyAnswer (jumpIf name) := by
  refine Builds.bind currentBlock_builds fun src b₁ _ hsrc => ?_
  refine Builds.bind (addJump_builds hsrc.opened name) fun _ b₂ h₂ _ => ?_
  refine Builds.bind openBlock_builds fun next b₃ h₃ hnext => ?_
  have hsrc := (h₂.trans h₃).opened hsrc.opened
  refine Builds.bind (addEdge_builds hsrc hnext.opened (by simp)) fun _ b₄ h₄ _ => ?_
  exact moveTo_some_builds (h₄.holds hnext)

theorem openArms_builds : Builds strict b (fun r b' => b'.Holds r.1 ∧ b'.Holds r.2) openArms := by
  refine Builds.bind currentBlock_builds fun cond b₁ _ hcond => ?_
  refine Builds.bind openBlock_builds fun onTrue b₂ h₂ htrue => ?_
  refine Builds.bind openBlock_builds fun onFalse b₃ h₃ hfalse => ?_
  have htrue := h₃.holds htrue
  have hcond := (h₂.trans h₃).opened hcond.opened
  refine Builds.bind (addEdge_builds hcond htrue.opened (by simp)) fun _ b₄ h₄ _ => ?_
  refine Builds.bind (addEdge_builds (h₄.opened hcond) (h₄.opened hfalse.opened) (by simp))
    fun _ b₅ h₅ _ => ?_
  refine Builds.bind moveTo_none_builds fun _ b₆ h₆ _ => ?_
  have hgrows := h₄.trans (h₅.trans h₆)
  exact Builds.pure ⟨hgrows.holds htrue, hgrows.holds hfalse⟩

theorem foldl_addEdge_grows {ends : List BlockId} {join : BlockId} (hjoin : Opened b.nextBlock join)
    (h : ∀ id ∈ ends, Opened b.nextBlock id) :
    b.Grows strict (ends.foldl (fun b src => b.addEdge src join .normal none) b) := by
  induction ends generalizing b with
  | nil => exact .refl b
  | cons src rest ih =>
    have hedge : Builder.Primitive strict b (b.addEdge src join .normal none) :=
      .addEdge (h src List.mem_cons_self) hjoin (by simp)
    exact hedge.grows.trans (ih hjoin fun id hid => h id (List.mem_cons_of_mem _ hid))

theorem joinArms_builds {ends : List BlockId} (h : ∀ id ∈ ends, Opened b.nextBlock id) :
    Builds strict b anyAnswer (joinArms ends) := by
  refine Builds.bind openBlock_builds fun join b₁ h₁ hjoin => ?_
  refine Builds.bind (Builds.modify fun _ => foldl_addEdge_grows hjoin.opened ?_)
    fun _ b₂ h₂ _ => moveTo_some_builds (h₂.holds hjoin)
  exact fun id hid => h₁.opened (h id hid)

/-- The blocks of a loop that edges may lead to. -/
def OpenedLoop (n : ℕ) (l : LoopBlocks) : Prop := Opened n l.header ∧ Opened n l.exit

theorem OpenedLoop.mono {n k : ℕ} {l : LoopBlocks} (h : OpenedLoop n l) (hk : n ≤ k) : OpenedLoop k l :=
  ⟨h.1.mono hk, h.2.mono hk⟩

theorem readAll_builds (refs : List String) : BuildsOrFails strict b anyAnswer (readAll refs) := by
  induction refs generalizing b with
  | nil => exact BuildsOrFails.pure trivial
  | cons ref rest ih => exact BuildsOrFails.bind (access_builds .read ref) fun _ _ _ _ => ih

/-- The part of entering a loop that comes before its scope; the answer has the first block of the body. -/
def openLoop (cond : List String) : Build (LoopBlocks × BlockId) := do
  let before ← currentBlock
  let header ← openBlock none
  addEdge before header .normal none
  moveTo (some header)
  readAll cond
  let body ← openBlock none
  let exit ← openBlock none
  addEdge header body .onTrue none
  addEdge header exit .onFalse none
  return ({ header := header, exit := exit }, body)

theorem enterLoop_eq (cond : List String) : enterLoop cond = (do
    let (l, body) ← openLoop cond
    modify fun b => (b.pushScope body).moveTo (some body)
    return l) := by
  simp [enterLoop, openLoop]

theorem openLoop_builds (cond : List String) : BuildsOrFails strict b
    (fun r b' => Opened b'.nextBlock r.1.header ∧ b'.Holds r.1.exit ∧ b'.Holds r.2) (openLoop cond) := by
  refine BuildsOrFails.bind (BuildsOrFails.lift currentBlock_builds) fun before b₁ _ hbefore => ?_
  refine BuildsOrFails.bind (BuildsOrFails.lift openBlock_builds) fun header b₂ h₂ hheader => ?_
  have hbefore := h₂.opened hbefore.opened
  refine BuildsOrFails.bind (BuildsOrFails.lift (addEdge_builds hbefore hheader.opened (by simp)))
    fun _ b₃ h₃ _ => ?_
  refine BuildsOrFails.bind (BuildsOrFails.lift (moveTo_some_builds (h₃.holds hheader)))
    fun _ b₄ h₄ _ => ?_
  refine BuildsOrFails.bind (readAll_builds cond) fun _ b₅ h₅ _ => ?_
  refine BuildsOrFails.bind (BuildsOrFails.lift openBlock_builds) fun body b₆ h₆ hbody => ?_
  refine BuildsOrFails.bind (BuildsOrFails.lift openBlock_builds) fun exit b₇ h₇ hexit => ?_
  have hheader := (h₃.trans (h₄.trans (h₅.trans (h₆.trans h₇)))).opened hheader.opened
  have hbody := h₇.holds hbody
  refine BuildsOrFails.bind (BuildsOrFails.lift (addEdge_builds hheader hbody.opened (by simp)))
    fun _ b₈ h₈ _ => ?_
  refine BuildsOrFails.bind (BuildsOrFails.lift (addEdge_builds (h₈.opened hheader)
    (h₈.opened hexit.opened) (by simp))) fun _ b₉ h₉ _ => ?_
  have hgrows := h₈.trans h₉
  exact BuildsOrFails.pure ⟨hgrows.opened hheader, hgrows.holds hexit, hgrows.holds hbody⟩

/-- Entering a loop opens the scope of the body, after the condition has been read. -/
theorem enterLoop_spec (strict : Prop) (cond : List String) (hb : b.Placed) :
    (∃ e b', (enterLoop cond).run b = (.error e, b') ∧ b.Grows strict b') ∨
    ∃ l body b', (enterLoop cond).run b = (.ok l, (b'.pushScope body).moveTo (some body)) ∧
      b.Grows strict b' ∧ Opened b'.nextBlock l.header ∧ b'.Holds l.exit ∧ b'.Holds body := by
  obtain ⟨hgrows, hgood⟩ : b.Grows strict _ ∧ _ := openLoop_builds cond hb
  have hrun : (enterLoop cond).run b = (ExceptT.bindCont (fun r : LoopBlocks × BlockId => (do
      modify fun b => (b.pushScope r.2).moveTo (some r.2)
      return r.1 : Build LoopBlocks)) ((openLoop cond).run b).1 : Extend _) ((openLoop cond).run b).2 := by
    rw [enterLoop_eq]
    rfl
  rw [hrun]
  generalize (openLoop cond).run b = r at hgrows hgood
  obtain ⟨r, b'⟩ := r
  cases r with
  | error e => exact .inl ⟨e, b', rfl, hgrows⟩
  | ok r => exact .inr ⟨r.1, r.2, b', rfl, hgrows, hgood r rfl⟩

theorem breakLoop_builds {l : LoopBlocks} (h : OpenedLoop b.nextBlock l) :
    Builds strict b anyAnswer (breakLoop l) := by
  refine Builds.bind currentBlock_builds fun src b₁ h₁ hsrc => ?_
  refine Builds.bind (addEdge_builds hsrc.opened (h₁.opened h.2) (by simp)) fun _ _ _ _ => ?_
  exact moveTo_none_builds

theorem breakLoopIf_builds {l : LoopBlocks} (h : OpenedLoop b.nextBlock l) :
    Builds strict b anyAnswer (breakLoopIf l) := by
  refine Builds.bind currentBlock_builds fun src b₁ h₁ hsrc => ?_
  refine Builds.bind openBlock_builds fun next b₂ h₂ hnext => ?_
  have hsrc := h₂.opened hsrc.opened
  refine Builds.bind (addEdge_builds hsrc ((h₁.trans h₂).opened h.2) (by simp)) fun _ b₃ h₃ _ => ?_
  refine Builds.bind (addEdge_builds (h₃.opened hsrc) (h₃.opened hnext.opened) (by simp))
    fun _ b₄ h₄ _ => ?_
  exact moveTo_some_builds ((h₃.trans h₄).holds hnext)

theorem continueLoop_builds {l : LoopBlocks} (h : OpenedLoop b.nextBlock l) :
    Builds strict b anyAnswer (continueLoop l) := by
  refine Builds.bind currentBlock_builds fun src b₁ h₁ hsrc => ?_
  refine Builds.bind (addEdge_builds hsrc.opened (h₁.opened h.1) (by simp)) fun _ _ _ _ => ?_
  exact moveTo_none_builds

theorem linkCurrent_builds (kind : EdgeKind) {dst next : BlockId} (hk : kind ≠ .jump)
    (hdst : Opened b.nextBlock dst) (hnext : b.Holds next) : Builds strict b anyAnswer (do
      match (← get).current with
      | some last => addEdge last dst kind none
      | none => pure ()
      moveTo (some next)) := by
  intro hb
  refine Builds.get ?_ hb
  cases hc : b.current with
  | some last =>
    refine Builds.bind (addEdge_builds (hb _ hc).opened hdst hk) fun _ b' h' _ => ?_
    exact moveTo_some_builds (h'.holds hnext)
  | none => exact moveTo_some_builds hnext

theorem leaveLoop_grows {l : LoopBlocks} (hb : b.popScope.Placed)
    (hheader : Opened b.popScope.nextBlock l.header) (hexit : b.popScope.Holds l.exit) :
    b.popScope.Grows strict (leaveLoop l b).2 :=
  (linkCurrent_builds .back (by simp) hheader hexit hb).1

theorem leaveOperand_builds {join : BlockId} (h : b.Holds join) :
    Builds strict b anyAnswer (leaveOperand join) :=
  linkCurrent_builds .normal (by simp) h.opened h

theorem enterScope_eq (b : Builder) : enterScope b =
    ((), ((continueInBlock none b).2.pushScope (continueInBlock none b).1).moveTo
      (some (continueInBlock none b).1)) := by
  change ((), (continueInBlock none b).2.pushScope (continueInBlock none b).1) = _
  rw [continueInBlock_eq]
  cases b.current <;> rfl

theorem leaveScope_grows (hb : b.popScope.Placed) : b.popScope.Grows strict (leaveScope b).2 :=
  (continueInBlock_builds hb).1

theorem leaveArm_grows (b : Builder) : b.popScope.Grows strict (leaveArm b).2 :=
  (Builder.Primitive.moveTo fun _ hx => by cases hx).grows

theorem enterOperand_builds (op : String) :
    BuildsOrFails strict b (fun join b' => b'.Holds join) (enterOperand op) := by
  have hrest : ∀ kind : EdgeKind, kind ≠ .jump →
      BuildsOrFails strict b (fun join b' => b'.Holds join) (do
        let left ← currentBlock
        let right ← openBlock none
        let join ← openBlock none
        addEdge left right kind none
        addEdge left join .skip none
        moveTo (some right)
        return join) := by
    intro kind hk
    refine BuildsOrFails.bind (BuildsOrFails.lift currentBlock_builds) fun left b₁ _ hleft => ?_
    refine BuildsOrFails.bind (BuildsOrFails.lift openBlock_builds) fun right b₂ h₂ hright => ?_
    refine BuildsOrFails.bind (BuildsOrFails.lift openBlock_builds) fun join b₃ h₃ hjoin => ?_
    have hleft := (h₂.trans h₃).opened hleft.opened
    have hright := h₃.holds hright
    refine BuildsOrFails.bind (BuildsOrFails.lift (addEdge_builds hleft hright.opened hk))
      fun _ b₄ h₄ _ => ?_
    refine BuildsOrFails.bind (BuildsOrFails.lift (addEdge_builds (h₄.opened hleft)
      (h₄.opened hjoin.opened) (by simp))) fun _ b₅ h₅ _ => ?_
    have hgrows := h₄.trans h₅
    refine BuildsOrFails.bind (BuildsOrFails.lift (moveTo_some_builds (hgrows.holds hright)))
      fun _ b₆ h₆ _ => ?_
    exact BuildsOrFails.pure ((hgrows.trans h₆).holds hjoin)
  rw [enterOperand]
  split
  · exact hrest .onTrue (by simp)
  · split
    · exact hrest .onFalse (by simp)
    · exact BuildsOrFails.throw_bind

theorem capture_builds (types : OrderedMap String TypeId) (names : List String) :
    BuildsOrFails strict b anyAnswer (capture types names) := by
  induction names generalizing b types with
  | nil => exact BuildsOrFails.pure trivial
  | cons name rest ih =>
    refine BuildsOrFails.get ?_
    exact BuildsOrFails.bind (access_builds .read name) fun _ _ _ _ => ih _

theorem addNested_builds {inner : Builder} (h : inner.Built) :
    Builds strict b anyAnswer (addNested inner.finish.function) :=
  Builds.modify fun _ => (Builder.Primitive.nested h).grows

end Build

end MovePlan
