import MovePlan.Proofs.Text.Quiet

set_option autoImplicit false

namespace MovePlan
namespace Text

def SiteExpr.kind : SiteExpr → SiteKind
  | decl .. => .decl
  | read _ => .read
  | write _ => .write
  | addr _ => .addrOf
  | move .. | temp .. => .moveOut

def SiteExpr.place? : SiteExpr → Option PlaceExpr
  | decl name _ => some { binding := name.text, path := [] }
  | read p | write p | addr p | move _ p _ => some p
  | temp .. => none

def Statement.site? : Statement → Option (SiteExpr × Span)
  | site s span => some (s, span)
  | _ => none

def Statement.jump? : Statement → Option String
  | jump label => some label
  | _ => none

/-- A site says what is written where it is written. -/
structure Transcribes (e : SiteExpr × Span) (s : Site) : Prop where
  kind : s.kind = e.1.kind
  binding : s.binding = e.1.place?.map PlaceExpr.binding
  path : s.path = (e.1.place?.map PlaceExpr.path).getD []
  span : s.span = e.2.withFile s.span.file

/-- A site with its number and its position, with all that its kind asks for. -/
structure StandsAt (t : TypeTable) (number : ℕ) (block : BlockId) (index : ℕ) (s : Site) : Prop where
  id : s.id = (number : ℤ)
  block : s.block = block
  index : s.index = (index : ℤ)
  complete : s.Complete True
  typed : ∀ {type : TypeId}, s.tempType = some type → t.contains type = true

/-- At most a local of a new name is added. -/
inductive Gains (t : TypeTable) (f : Function) : Function → Prop
  | nothing : Gains t f f
  | binding {name : String} {x : Binding} (hfresh : f.binding? name = none) (hparam : x.isParam = false)
      (hx : t.contains x.type = true) : Gains t f { f with bindings := f.bindings.put name x }

section
variable {t t' : TypeTable} {f g : Function}

theorem StandsAt.mono {number index : ℕ} {block : BlockId} {s : Site} (h : StandsAt t number block index s)
    (ht : t.Extends t') : StandsAt t' number block index s :=
  ⟨h.id, h.block, h.index, h.complete, fun hs => ht.contains (h.typed hs)⟩

theorem Gains.mono (h : Gains t f g) (ht : t.Extends t') : Gains t' f g := by
  cases h with
  | nothing => exact .nothing
  | binding hfresh hparam hx => exact .binding hfresh hparam (ht.contains hx)

theorem Gains.bindings (h : Gains t f g) : ∃ bindings, g = { f with bindings := bindings } := by
  cases h with
  | nothing => exact ⟨f.bindings, by cases f; rfl⟩
  | binding => exact ⟨_, rfl⟩

theorem Gains.boundIn (h : Gains t f g) (hf : f.BoundIn t) : g.BoundIn t := by
  cases h with
  | nothing => exact hf
  | @binding name x hfresh hparam hx =>
    refine hf.put hfresh hx rfl ?_ (fun _ => .inl) rfl
    rw [hparam]
    exact (List.append_nil _).symm

end

theorem withFile_file (span : Span) (file : Option String) :
    span.withFile file = span.withFile (span.withFile file).file := by
  cases file with
  | some f => rfl
  | none =>
    obtain ⟨file, line, column, lastLine, lastColumn⟩ := span
    cases file <;> rfl

theorem buildTarget_table {e : TargetExpr} {b b' : Assembly} {target : Target}
    (h : buildTarget e b = .ok (target, b')) : b' = b := by
  cases e with
  | call callee index flags =>
    obtain ⟨v, b₁, hv, h⟩ := run_bind.1 h
    obtain ⟨-, rfl⟩ := run_valueOf.1 hv
    exact (run_pure.1 h).2.symm
  | result flags => exact (run_pure.1 h).2.symm
  | assign dest => exact (run_pure.1 h).2.symm

section
variable {f : Function} {number index : ℕ} {block : BlockId} {span : Span} {b b' : Assembly}
  {r : Function × Option Site}

def Makes (f : Function) (number index : ℕ) (block : BlockId) (t : TypeTable) (e : SiteExpr × Span)
    (r : Function × Option Site) : Prop :=
  ∃ s, r.2 = some s ∧ Transcribes e s ∧ StandsAt t number block index s ∧ Gains t f r.1

theorem buildAccess_makes {e : SiteExpr} {kind : SiteKind} {place : PlaceExpr} (hkind : e.kind = kind)
    (hplace : e.place? = some place) (hne : kind ≠ .moveOut)
    (h : buildSite.access f number block index span kind place b = .ok (r, b')) :
    Makes f number index block b'.table (e, span) r := by
  obtain ⟨at_, b₁, hspan, h⟩ := run_bind.1 h
  obtain ⟨rfl, rfl⟩ := run_spanInFile.1 hspan
  obtain ⟨rfl, rfl⟩ := run_pure.1 h
  refine ⟨_, rfl, ⟨hkind.symm, by rw [hplace]; rfl, by rw [hplace]; rfl, withFile_file _ _⟩, ?_, .nothing⟩
  exact ⟨rfl, rfl, rfl, ⟨fun hn => (by cases hn), fun _ hk => absurd hk hne⟩, fun ht => by cases ht⟩

theorem buildDecl_makes {name : Name} {type : TypeExpr}
    (h : buildSite f number block index span (.decl name type) b = .ok (r, b')) (hq : b'.Quiet) :
    Makes f number index block b'.table (.decl name type, span) r := by
  obtain ⟨t, b₁, ht, h⟩ := run_bind.1 h
  split at h
  next => exact absurd hq (not_quiet_of_report h fun _ => .pure _)
  next hfresh =>
    rw [OrderedMap.contains, Option.not_isSome_iff_eq_none] at hfresh
    obtain ⟨at_, b₂, hspan, h⟩ := run_bind.1 h
    obtain ⟨rfl, rfl⟩ := run_spanInFile.1 hspan
    obtain ⟨rfl, rfl⟩ := run_pure.1 h
    refine ⟨_, rfl, ⟨rfl, rfl, rfl, withFile_file _ _⟩, ?_, ?_⟩
    · exact ⟨rfl, rfl, rfl, ⟨fun hn => (by cases hn), fun _ hk => (by cases hk)⟩, fun ht => by cases ht⟩
    · exact .binding hfresh rfl (contains_of_resolveType ht hq)

theorem buildTemp_makes {type : TypeExpr} {target : TargetExpr}
    (h : buildSite f number block index span (.temp type target) b = .ok (r, b')) (hq : b'.Quiet) :
    Makes f number index block b'.table (.temp type target, span) r := by
  obtain ⟨t, b₁, ht, h⟩ := run_bind.1 h
  obtain ⟨goal, b₂, hgoal, hrest⟩ := run_bind.1 h
  obtain rfl := buildTarget_table hgoal
  obtain ⟨at_, b₃, hspan, hrest⟩ := run_bind.1 hrest
  obtain ⟨rfl, rfl⟩ := run_spanInFile.1 hspan
  obtain ⟨rfl, rfl⟩ := run_pure.1 hrest
  refine ⟨_, rfl, ⟨rfl, rfl, rfl, withFile_file _ _⟩, ?_, .nothing⟩
  refine ⟨rfl, rfl, rfl, ⟨fun _ => ⟨rfl, rfl⟩, fun _ _ => rfl⟩, fun {u} hu => ?_⟩
  obtain rfl := Option.some.inj hu
  exact contains_of_resolveType ht hq

theorem buildMove_makes {flags : List MoveFlag} {place : PlaceExpr} {target : TargetExpr}
    (h : buildSite f number block index span (.move flags place target) b = .ok (r, b')) :
    Makes f number index block b'.table (.move flags place target, span) r := by
  obtain ⟨goal, b₂, hgoal, hrest⟩ := run_bind.1 h
  obtain rfl := buildTarget_table hgoal
  obtain ⟨at_, b₃, hspan, hrest⟩ := run_bind.1 hrest
  obtain ⟨rfl, rfl⟩ := run_spanInFile.1 hspan
  obtain ⟨rfl, rfl⟩ := run_pure.1 hrest
  refine ⟨_, rfl, ⟨rfl, rfl, rfl, withFile_file _ _⟩, ?_, .nothing⟩
  exact ⟨rfl, rfl, rfl, ⟨fun hn => (by cases hn), fun _ _ => rfl⟩, fun ht => by cases ht⟩

theorem buildSite_makes {e : SiteExpr} (h : buildSite f number block index span e b = .ok (r, b'))
    (hq : b'.Quiet) : Makes f number index block b'.table (e, span) r := by
  cases e with
  | decl name type => exact buildDecl_makes h hq
  | temp type target => exact buildTemp_makes h hq
  | move flags place target => exact buildMove_makes h
  | read place => exact buildAccess_makes rfl rfl (by simp [SiteExpr.kind]) h
  | write place => exact buildAccess_makes rfl rfl (by simp [SiteExpr.kind]) h
  | addr place => exact buildAccess_makes rfl rfl (by simp [SiteExpr.kind]) h

end

/-- What a statement of the block `id` adds to the function and to the block. -/
inductive Step (t : TypeTable) (id : BlockId) : Statement → Body × Block → Body × Block → Prop
  | ret {body : Body} {blk : Block} : Step t id .ret (body, blk) (body, blk)
  | edge {word : EdgeWord} {dst : Numeral} {v : BlockId} {body : Body} {blk : Block} :
      Step t id (.edge word dst) (body, blk)
        (body, { blk with edges := blk.edges ++ [{ src := id, dst := v, kind := word.kind }] })
  | jump {label : String} {dst next : BlockId} {body : Body} {blk : Block}
      (hdst : lastWrite label body.labels = some dst ∧ next = body.nextDangling ∨
        lastWrite label body.labels = none ∧ dst = body.nextDangling ∧ next = body.nextDangling + 1) :
      Step t id (.jump label) (body, blk) ({ body with nextDangling := next },
        { blk with edges := blk.edges ++ [{ src := id, dst := dst, kind := .jump, label := some label }] })
  | site {e : SiteExpr} {span : Span} {s : Site} {f : Function} {body : Body} {blk : Block}
      (hread : Transcribes (e, span) s) (hs : StandsAt t body.nextSite id blk.sites.length s)
      (hf : Gains t body.function f) :
      Step t id (.site e span) (body, blk) ({ body with function := f, nextSite := body.nextSite + 1 },
        { blk with sites := blk.sites ++ [s] })

inductive Steps (t : TypeTable) (id : BlockId) : List Statement → Body × Block → Body × Block → Prop
  | nil {p : Body × Block} : Steps t id [] p p
  | cons {st : Statement} {rest : List Statement} {p q r : Body × Block} (h : Step t id st p q)
      (hrest : Steps t id rest q r) : Steps t id (st :: rest) p r

theorem steps_of_buildStatements {id : BlockId} {statements : List Statement} {body : Body} {blk : Block}
    {b b' : Assembly} {r : Body × Block} (h : buildStatements id statements body blk b = .ok (r, b'))
    (hq : b'.Quiet) : Steps b'.table id statements (body, blk) r := by
  induction statements generalizing body blk b with
  | nil =>
    obtain ⟨rfl, rfl⟩ := run_pure.1 h
    exact .nil
  | cons st rest ih =>
    cases st with
    | ret => exact .cons .ret (ih h)
    | edge word dst =>
      obtain ⟨v, b₁, -, h⟩ := run_bind.1 h
      exact .cons .edge (ih h)
    | jump label =>
      refine .cons (.jump ?_) (ih h)
      cases lastWrite label body.labels with
      | some dst => exact .inl ⟨rfl, rfl⟩
      | none => exact .inr ⟨rfl, rfl, rfl⟩
    | site e span =>
      obtain ⟨⟨f, site⟩, b₁, hsite, h⟩ := run_bind.1 h
      have hext := builds_buildStatements _ _ _ _ _ _ _ h
      obtain ⟨s, rfl, hread, hs, hf⟩ := buildSite_makes hsite (hext.quiet hq)
      exact .cons (.site hread (hs.mono hext.table) (hf.mono hext.table)) (ih h)

theorem Step.mono {t t' : TypeTable} {id : BlockId} {st : Statement} {p q : Body × Block} (h : Step t id st p q)
    (ht : t.Extends t') : Step t' id st p q := by
  cases h with
  | ret => exact .ret
  | edge => exact .edge
  | jump hdst => exact .jump hdst
  | site hread hs hf => exact .site hread (hs.mono ht) (hf.mono ht)

theorem Steps.mono {t t' : TypeTable} {id : BlockId} {statements : List Statement} {p q : Body × Block}
    (h : Steps t id statements p q) (ht : t.Extends t') : Steps t' id statements p q := by
  induction h with
  | nil => exact .nil
  | cons h _ ih => exact .cons (h.mono ht) ih

/-- Edges and sites stand where they say, and the numbers go on from `first`. -/
structure InOrder (t : TypeTable) (labels : List (String × BlockId)) (dangling id : BlockId) (first : ℕ)
    (p : Body × Block) : Prop where
  known : p.1.labels = labels
  free : dangling ≤ p.1.nextDangling
  next : p.1.nextSite = first + p.2.sites.length
  edges : ∀ {e : Edge}, e ∈ p.2.edges → e.src = id ∧ (e.kind = .jump → DrawnTo labels dangling e)
  sites : ∀ {i : ℕ} {s : Site}, p.2.sites[i]? = some s → StandsAt t (first + i) id i s

structure Frame (t : TypeTable) (p q : Body × Block) : Prop where
  bindings : ∃ bindings, q.1.function = { p.1.function with bindings := bindings }
  boundIn : p.1.function.BoundIn t → q.1.function.BoundIn t
  label : q.2.label = p.2.label

section
variable {t : TypeTable} {labels : List (String × BlockId)} {dangling id : BlockId} {first : ℕ}
  {st : Statement} {statements : List Statement} {p q : Body × Block}

theorem InOrder.addEdge {body : Body} {blk : Block} (h : InOrder t labels dangling id first (body, blk))
    {next : BlockId} (hnext : dangling ≤ next) {e : Edge}
    (he : e.src = id ∧ (e.kind = .jump → DrawnTo labels dangling e)) :
    InOrder t labels dangling id first
      ({ body with nextDangling := next }, { blk with edges := blk.edges ++ [e] }) := by
  refine ⟨h.known, hnext, h.next, fun {e'} he' => ?_, h.sites⟩
  rcases List.mem_append.1 he' with hold | hnew
  · exact h.edges hold
  · exact List.mem_singleton.1 hnew ▸ he

theorem Step.inOrder (h : Step t id st p q) (hp : InOrder t labels dangling id first p) :
    InOrder t labels dangling id first q := by
  cases h with
  | ret => exact hp
  | @edge word dst v body blk =>
    refine hp.addEdge hp.free ⟨rfl, fun hk => ?_⟩
    cases word <;> cases hk
  | @jump label dst next body blk hdst =>
    rcases hdst with ⟨hdst, rfl⟩ | ⟨hnone, rfl, rfl⟩
    · exact hp.addEdge hp.free ⟨rfl, fun _ => ⟨label, rfl, .inl (hp.known ▸ hdst)⟩⟩
    · refine hp.addEdge (hp.free.trans (Int.le_add_one le_rfl)) ⟨rfl, fun _ => ?_⟩
      exact ⟨label, rfl, .inr ⟨hp.known ▸ hnone, hp.free⟩⟩
  | @site e span s f body blk hread hs hf =>
    have hnext : body.nextSite = first + blk.sites.length := hp.next
    refine ⟨hp.known, hp.free, ?_, hp.edges, fun {i s'} hi => ?_⟩
    · rw [List.length_append, List.length_singleton, hnext, Nat.add_assoc]
    · rw [List.getElem?_append] at hi
      split at hi
      next => exact hp.sites hi
      next hlast =>
        obtain ⟨hlt, rfl⟩ := List.getElem?_eq_some_iff.1 hi
        obtain rfl : i = blk.sites.length := by
          rw [List.length_singleton] at hlt
          omega
        simpa [hnext] using hs

theorem Step.frame (h : Step t id st p q) : Frame t p q := by
  have hsame : ∀ {body : Body}, ∃ bindings, body.function = { body.function with bindings := bindings } :=
    fun {body} => ⟨body.function.bindings, by cases body.function; rfl⟩
  cases h with
  | ret => exact ⟨hsame, fun hb => hb, rfl⟩
  | edge => exact ⟨hsame, fun hb => hb, rfl⟩
  | jump => exact ⟨hsame, fun hb => hb, rfl⟩
  | site hread hs hf => exact ⟨hf.bindings, hf.boundIn, rfl⟩

theorem Step.transcribes (h : Step t id st p q) : ∃ new, q.2.sites = p.2.sites ++ new ∧
    List.Forall₂ Transcribes st.site?.toList new := by
  cases h with
  | ret => exact ⟨[], (List.append_nil _).symm, .nil⟩
  | edge => exact ⟨[], (List.append_nil _).symm, .nil⟩
  | jump => exact ⟨[], (List.append_nil _).symm, .nil⟩
  | site hread hs hf => exact ⟨_, rfl, .cons hread .nil⟩

theorem Step.jumps (h : Step t id st p q) : (q.2.edges.filter (·.kind = .jump)).map Edge.label =
    (p.2.edges.filter (·.kind = .jump)).map Edge.label ++ st.jump?.toList.map some := by
  cases h with
  | ret => simp [Statement.jump?]
  | @edge word => cases word <;> simp [Statement.jump?, EdgeWord.kind]
  | jump => simp [Statement.jump?]
  | site => simp [Statement.jump?]

theorem Steps.inOrder (h : Steps t id statements p q) (hp : InOrder t labels dangling id first p) :
    InOrder t labels dangling id first q := by
  induction h with
  | nil => exact hp
  | cons h _ ih => exact ih (h.inOrder hp)

theorem Steps.frame (h : Steps t id statements p q) : Frame t p q := by
  induction h with
  | @nil p => exact ⟨⟨p.1.function.bindings, by cases p.1.function; rfl⟩, fun hb => hb, rfl⟩
  | cons h _ ih =>
    obtain ⟨bindings, hf⟩ := h.frame.bindings
    obtain ⟨bindings', hf'⟩ := ih.bindings
    exact ⟨⟨bindings', by rw [hf', hf]⟩, fun hb => ih.boundIn (h.frame.boundIn hb),
      ih.label.trans h.frame.label⟩

theorem Steps.transcribes (h : Steps t id statements p q) : ∃ new, q.2.sites = p.2.sites ++ new ∧
    List.Forall₂ Transcribes (statements.filterMap Statement.site?) new := by
  induction h with
  | nil => exact ⟨[], (List.append_nil _).symm, .nil⟩
  | @cons st rest p q r h _ ih =>
    obtain ⟨new, hnew, hread⟩ := h.transcribes
    obtain ⟨new', hnew', hread'⟩ := ih
    refine ⟨new ++ new', by rw [hnew', hnew, List.append_assoc], ?_⟩
    have hsplit : (st :: rest).filterMap Statement.site? = st.site?.toList ++ rest.filterMap Statement.site? := by
      cases hst : st.site? <;> simp [hst]
    rw [hsplit]
    exact List.rel_append hread hread'

theorem Steps.jumps (h : Steps t id statements p q) : (q.2.edges.filter (·.kind = .jump)).map Edge.label =
    (p.2.edges.filter (·.kind = .jump)).map Edge.label ++ (statements.filterMap Statement.jump?).map some := by
  induction h with
  | nil => exact (List.append_nil _).symm
  | @cons st rest p q r h _ ih =>
    rw [ih, h.jumps, List.append_assoc, ← List.map_append]
    cases hst : st.jump? <;> simp [hst]

end

end Text
end MovePlan
