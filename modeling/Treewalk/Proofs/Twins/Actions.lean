import Treewalk.Proofs.Twins.Worlds

/-! The elementary actions of two runs side by side. -/
namespace Treewalk

open World

section Monotone
variable {ρ : Spelling} {w w' : World} (le : w.Le w')
include le

theorem FunctionLike.later {f f' : Function} (like : FunctionLike ρ w f f') : FunctionLike ρ w' f f' := by
  obtain ⟨initializes, layers, found, code⟩ := like
  exact ⟨initializes, layers, le _ _ found, code⟩

theorem MethodLike.later {f f' : Function} (like : MethodLike ρ w f f') : MethodLike ρ w' f f' := by
  obtain ⟨initializes, layers, found, code⟩ := like
  exact ⟨initializes, layers, le _ _ found, code⟩

theorem CallableLike.later {c c' : Callable} (like : CallableLike ρ w c c') : CallableLike ρ w' c c' := by
  cases like with
  | function like => exact .function (like.later le)
  | native => exact .native

theorem CalleeLike.later {c c' : Callee} (like : CalleeLike ρ w c c') : CalleeLike ρ w' c c' := by
  cases like with
  | callable like => exact .callable (like.later le)
  | construct => exact .construct

end Monotone

theorem relLater {α β : Type} {R S : α → β → Prop} (weaker : ∀ {a b}, R a b → S a b) {x : Option α} {y : Option β}
    (rel : Option.Rel R x y) : Option.Rel S x y := by
  cases rel with
  | some holds => exact .some (weaker holds)
  | none => exact .none

theorem ClassLike.later {ρ : Spelling} {w w' : World} (le : w.Le w') {c c' : Class} (like : ClassLike ρ w c c') :
    ClassLike ρ w' c c' :=
  ⟨like.name, like.superclass, fun name => relLater (.later le) (like.methods name),
    fun name => relLater (.later le) (like.classMethods name)⟩

theorem likeNamed {ρ : Spelling} {layers : List Layer} {decl decl' : FunctionDecl} (like : decl.Like ρ layers decl') :
    decl'.name = decl.name ∧ decl'.arity = decl.arity := by
  obtain ⟨name, params, body, line⟩ := decl
  obtain ⟨renamed, renamedBody, body', rfl, _⟩ := like
  exact ⟨rfl, List.length_map _⟩

namespace Twins
variable {ρ : Spelling} {w : World} {m m' : Machine}

theorem extendWorld {w' : World} (t : Twins ρ w m m') (le : w.Le w') {fs fs' : Frames}
    (frames : FramesFit ρ w' fs fs') (root : fs.parent? m.globals = none) :
    Twins ρ w' { m with heap := { m.heap with frames := fs } } { m' with heap := { m'.heap with frames := fs' } } :=
  { t with
    frames := frames
    callables := fun id => relLater (.later le) (t.callables id)
    classes := fun id => relLater (.later le) (t.classes id)
    root := le _ _ t.root
    rootParent := root }

theorem parentDefine (fs : Frames) (id other : FrameId) (name : String) (value : Value) :
    (fs.define id name value).parent? other = fs.parent? other := by
  unfold Frames.parent?
  rw [Frames.frameDefine]
  split
  · rename_i same
    subst same
    cases fs.frame? other <;> rfl
  · rfl

theorem parentKept {fs : Frames} {id : FrameId} (here : ∃ frame, fs.frame? id = some frame) (parent : FrameId) :
    (fs.addChild parent).parent? id = fs.parent? id := by
  obtain ⟨frame, found⟩ := here
  simp only [Frames.parent?, Frames.addedKept fs parent id frame found, found]

theorem define (t : Twins ρ w m m') {renamed : Bool} {id twin : FrameId} (mate : w.Mate renamed id twin) (name : String)
    (value : Value) : Twins ρ w (m.define id name value) (m'.define twin (ρ.spell renamed name) value) :=
  t.extendWorld (.refl w) (t.frames.define mate name value) ((parentDefine _ _ _ _ _).trans t.rootParent)

theorem addShared (t : Twins ρ w m m') {layers : List Layer} {parent parent' : FrameId}
    (found : w parent = some ⟨layers, parent'⟩) (renamed : Bool) :
    Twins ρ (w.add m.heap.frames.nextId ⟨.shared renamed :: layers, m'.heap.frames.nextId⟩) (m.addFrame parent)
      (m'.addFrame parent') :=
  t.extendWorld (leAdd t.frames.unknown _) (t.frames.addShared found renamed)
    ((parentKept (t.frames.known t.root) parent).trans t.rootParent)

theorem addExtra (t : Twins ρ w m m') {layers : List Layer} {parent twin : FrameId}
    (found : w parent = some ⟨layers, twin⟩) :
    Twins ρ (w.add m.heap.frames.nextId ⟨.extra :: layers, twin⟩) (m.addFrame parent) m' :=
  t.extendWorld (leAdd t.frames.unknown _) (t.frames.addExtra found)
    ((parentKept (t.frames.known t.root) parent).trans t.rootParent)

theorem relPush {α : Type} {R : α → α → Prop} {a a' : α} {xs xs' : Array α} (count : xs'.size = xs.size)
    (all : ∀ index : Nat, Option.Rel R xs[index]? xs'[index]?) (new : R a a') (index : Nat) :
    Option.Rel R (xs.push a)[index]? (xs'.push a')[index]? := by
  rw [Array.getElem?_push, Array.getElem?_push, count]
  split
  · exact .some new
  · exact all index

theorem addCallable (t : Twins ρ w m m') {c c' : Callable} (like : CallableLike ρ w c c') :
    Twins ρ w (m.addCallable c) (m'.addCallable c') :=
  { t with
    callables := fun id => relPush t.callableCount (fun index => t.callables ⟨index⟩) like id.index
    callableCount := by simp only [Machine.addCallable, Array.size_push, t.callableCount] }

theorem addClass (t : Twins ρ w m m') {c c' : Class} (like : ClassLike ρ w c c') :
    Twins ρ w (m.addClass c) (m'.addClass c') :=
  { t with
    classes := fun id => relPush t.classCount (fun index => t.classes ⟨index⟩) like id.index
    classCount := by simp only [Machine.addClass, Array.size_push, t.classCount] }

theorem addInstance (t : Twins ρ w m m') (i : Instance) : Twins ρ w (m.addInstance i) (m'.addInstance i) :=
  { t with instances := congrArg (Array.push · i) t.instances }

theorem setField (t : Twins ρ w m m') (id : InstanceId) (name : String) (value : Value) :
    Twins ρ w (m.setField id name value) (m'.setField id name value) :=
  { t with
    instances := congrArg (fun all : Array Instance =>
      all.modify id.index fun i => { i with fields := i.fields.insert name value }) t.instances }

theorem className (t : Twins ρ w m m') (id : ClassId) : m'.heap.className id = m.heap.className id := by
  have like := t.classes id
  unfold Heap.className
  cases here : m.heap.class? id with
  | none =>
    rw [here] at like
    cases there : m'.heap.class? id with
    | none => rfl
    | some c' =>
      rw [there] at like
      cases like
  | some c =>
    rw [here] at like
    cases there : m'.heap.class? id with
    | none =>
      rw [there] at like
      cases like
    | some c' =>
      rw [there] at like
      cases like with
      | some like => exact like.name

theorem callableText {c c' : Callable} (like : CallableLike ρ w c c') : c'.text = c.text := by
  cases like with
  | native => rfl
  | function like =>
    obtain ⟨_, layers, _, code, _⟩ := like
    unfold Callable.text
    dsimp only
    rw [(likeNamed code).1]

theorem display (t : Twins ρ w m m') (value : Value) : m'.heap.display value = m.heap.display value := by
  cases value with
  | function id =>
    have like := t.callables id
    unfold Heap.display
    dsimp only
    generalize m.heap.callable? id = here at like ⊢
    generalize m'.heap.callable? id = there at like ⊢
    cases like with
    | none => rfl
    | some like => exact callableText like
  | classObject id => exact t.className id
  | instanceObject id =>
    simp only [Heap.display, Heap.instanceClassName, Heap.instance?, t.instances]
    cases m.heap.instances[id.index]? with
    | none => rfl
    | some i => exact congrArg (· ++ " instance") (t.className i.cls)
  | bool b => cases b <;> rfl
  | _ => rfl

theorem hostView (t : Twins ρ w m m') : m'.hostView = m.hostView := by
  unfold Machine.hostView
  rw [t.clock]
  exact congrArg (HostView.mk · _) (funext t.display)

theorem findAlong (t : Twins ρ w m m') {table : Class → Table Function} {R : Function → Function → Prop}
    (tables : ∀ {c c'}, ClassLike ρ w c c' → ∀ name, Option.Rel R ((table c).find? name) ((table c').find? name))
    (name : String) (steps : Nat) (id : ClassId) :
    Option.Rel R (m.heap.findAlong table name steps id) (m'.heap.findAlong table name steps id) := by
  induction steps generalizing id with
  | zero => exact .none
  | succ steps ih =>
    have like := t.classes id
    unfold Heap.findAlong
    generalize m.heap.class? id = here at like ⊢
    generalize m'.heap.class? id = there at like ⊢
    cases like with
    | none => exact .none
    | @some c c' like =>
      have found := tables like name
      dsimp only
      generalize (table c).find? name = f at found ⊢
      generalize (table c').find? name = f' at found ⊢
      rw [like.superclass]
      cases found with
      | some found => exact .some found
      | none =>
        cases c.superclass with
        | none => exact .none
        | some superclass => exact ih superclass

theorem findMethod (t : Twins ρ w m m') (id : ClassId) (name : String) :
    Option.Rel (MethodLike ρ w) (m.heap.findMethod? id name) (m'.heap.findMethod? id name) := by
  unfold Heap.findMethod?
  rw [t.classCount]
  exact t.findAlong ClassLike.methods name _ id

theorem findClassMethod (t : Twins ρ w m m') (id : ClassId) (name : String) :
    Option.Rel (FunctionLike ρ w) (m.heap.findClassMethod? id name) (m'.heap.findClassMethod? id name) := by
  unfold Heap.findClassMethod?
  rw [t.classCount]
  exact t.findAlong ClassLike.classMethods name _ id

theorem callee (t : Twins ρ w m m') (value : Value) :
    Option.Rel (CalleeLike ρ w) (m.heap.callee? value) (m'.heap.callee? value) := by
  cases value with
  | function id =>
    have like := t.callables id
    unfold Heap.callee?
    dsimp only
    generalize m.heap.callable? id = here at like ⊢
    generalize m'.heap.callable? id = there at like ⊢
    cases like with
    | none => exact .none
    | some like => exact .some (.callable like)
  | classObject id => exact .some .construct
  | _ => exact .none

theorem arity (t : Twins ρ w m m') {c c' : Callee} (like : CalleeLike ρ w c c') : m'.heap.arity c' = m.heap.arity c := by
  cases like with
  | callable like =>
    cases like with
    | native => rfl
    | function like =>
      obtain ⟨_, layers, _, code, _⟩ := like
      exact (likeNamed code).2
  | @construct cls =>
    have found := t.findMethod cls "init"
    unfold Heap.arity
    dsimp only
    generalize m.heap.findMethod? cls "init" = here at found ⊢
    generalize m'.heap.findMethod? cls "init" = there at found ⊢
    cases found with
    | none => rfl
    | some like =>
      obtain ⟨_, layers, _, code⟩ := like
      exact (likeNamed code).2

end Twins

inductive FaultLike (ρ : Spelling) : RuntimeFault → RuntimeFault → Prop where
  | same {fault} : FaultLike ρ fault fault
  | undefined {name} (known : ρ.known name) : FaultLike ρ (.undefinedVariable name) (.undefinedVariable (ρ.map name))

theorem undefinedLike {ρ : Spelling} {renamed : Bool} {name : String} (known : renamed = true → ρ.known name) :
    FaultLike ρ (.undefinedVariable name) (.undefinedVariable (ρ.spell renamed name)) := by
  cases renamed with
  | false => exact .same
  | true => exact .undefined (known rfl)

structure After (ρ : Spelling) (w : World) (m m' : Machine) (v : World) (n n' : Machine) : Prop where
  le : w.Le v
  twins : Twins ρ v n n'
  here : n.environment = m.environment
  there : n'.environment = m'.environment

inductive Outcome (ρ : Spelling) (w : World) (m m' : Machine) (post : World → α → β → Prop) :
    EStateM.Result Halt Machine α → EStateM.Result Halt Machine β → Prop where
  | ok {v n n' a b} (after : After ρ w m m' v n n') (holds : post v a b) : Outcome ρ w m m' post (.ok a n) (.ok b n')
  | error {v n n' line fault fault'} (after : After ρ w m m' v n n') (like : FaultLike ρ fault fault') :
      Outcome ρ w m m' post (.error (.error ⟨line, fault⟩) n) (.error (.error ⟨line, fault'⟩) n')
  | exhausted {n n'} : Outcome ρ w m m' post (.error .exhausted n) (.error .exhausted n')

def Tied (ρ : Spelling) (w : World) (m m' : Machine) (action : Run α) (action' : Run β) (post : World → α → β → Prop) :
    Prop :=
  Outcome ρ w m m' post (action m) (action' m')

def Same (_ : World) (a b : α) : Prop := b = a

def Level (w : World) (m m' : Machine) (layers : List Layer) : Prop := w m.environment = some ⟨layers, m'.environment⟩

section
variable {ρ : Spelling} {w v : World} {m m' n n' : Machine}

theorem After.refl (t : Twins ρ w m m') : After ρ w m m' w m m' := ⟨.refl w, t, rfl, rfl⟩

theorem After.level (after : After ρ w m m' v n n') {layers : List Layer} (level : Level w m m' layers) :
    Level v n n' layers := by
  unfold Level
  rw [after.here, after.there]
  exact after.le _ _ level

theorem After.trans {u : World} {l l' : Machine} (first : After ρ w m m' v n n') (second : After ρ v n n' u l l') :
    After ρ w m m' u l l' :=
  ⟨first.le.trans second.le, second.twins, second.here.trans first.here, second.there.trans first.there⟩

theorem Outcome.since {post : World → α → β → Prop} {result : EStateM.Result Halt Machine α}
    {result' : EStateM.Result Halt Machine β} (first : After ρ w m m' v n n')
    (second : Outcome ρ v n n' post result result') : Outcome ρ w m m' post result result' := by
  cases second with
  | ok after holds => exact .ok (first.trans after) holds
  | error after like => exact .error (first.trans after) like
  | exhausted => exact .exhausted

end

namespace Tied
variable {ρ : Spelling} {w : World} {m m' : Machine}

theorem bind {action : Run α} {action' : Run β} {next : α → Run γ} {next' : β → Run δ} {mid : World → α → β → Prop}
    {post : World → γ → δ → Prop} (first : Tied ρ w m m' action action' mid)
    (second : ∀ v n n' a b, After ρ w m m' v n n' → mid v a b → Tied ρ v n n' (next a) (next' b) post) :
    Tied ρ w m m' (action >>= next) (action' >>= next') post := by
  unfold Tied at first
  change Outcome ρ w m m' post (EStateM.bind action next m) (EStateM.bind action' next' m')
  unfold EStateM.bind
  generalize action m = result at first ⊢
  generalize action' m' = result' at first ⊢
  cases first with
  | ok after holds => exact (second _ _ _ _ _ after holds).since after
  | error after like => exact .error after like
  | exhausted => exact .exhausted

theorem next {action action' : Run α} {next next' : α → Run β} {post : World → β → β → Prop}
    (first : Tied ρ w m m' action action' Same)
    (second : ∀ v n n' a, After ρ w m m' v n n' → Tied ρ v n n' (next a) (next' a) post) :
    Tied ρ w m m' (action >>= next) (action' >>= next') post := by
  refine bind first ?_
  intro v n n' a b after same
  cases same
  exact second v n n' a after

theorem mapped {action action' : Run α} (h : Tied ρ w m m' action action' Same) (f : α → β) :
    Tied ρ w m m' action (do return f (← action')) fun _ a b => b = f a := by
  unfold Tied at h
  change Outcome ρ w m m' _ (action m) (EStateM.bind action' (fun a => pure (f a)) m')
  unfold EStateM.bind
  generalize action m = result at h ⊢
  generalize action' m' = result' at h ⊢
  cases h with
  | ok after same => exact .ok after (congrArg f same)
  | error after like => exact .error after like
  | exhausted => exact .exhausted

theorem within {action : Run α} {action' : Run β} {post : World → α → β → Prop} {id twin : FrameId}
    (h : Tied ρ w { m with environment := id } { m' with environment := twin } action action' post) :
    Tied ρ w m m' (Run.within id action) (Run.within twin action') post := by
  unfold Tied at h
  unfold Tied Run.within
  dsimp only
  generalize action { m with environment := id } = result at h ⊢
  generalize action' { m' with environment := twin } = result' at h ⊢
  cases h with
  | ok after holds => exact .ok ⟨after.le, { after.twins with }, rfl, rfl⟩ holds
  | error after like => exact .error ⟨after.le, { after.twins with }, rfl, rfl⟩ like
  | exhausted => exact .exhausted

theorem counted {action : Run α} {action' : Run β} {post : World → α → β → Prop}
    (h : Tied ρ w { m with callDepth := m.callDepth + 1 } { m' with callDepth := m'.callDepth + 1 } action action' post) :
    Tied ρ w m m' (Run.counted action) (Run.counted action') post := by
  unfold Tied at h
  unfold Tied Run.counted
  generalize action { m with callDepth := m.callDepth + 1 } = result at h ⊢
  generalize action' { m' with callDepth := m'.callDepth + 1 } = result' at h ⊢
  cases h with
  | ok after holds =>
    have twins := after.twins
    exact .ok ⟨after.le, { twins with callDepth := congrArg (· - 1) twins.callDepth }, after.here, after.there⟩ holds
  | error after like =>
    have twins := after.twins
    exact .error ⟨after.le, { twins with callDepth := congrArg (· - 1) twins.callDepth }, after.here, after.there⟩ like
  | exhausted => exact .exhausted

variable (t : Twins ρ w m m')
include t

theorem pure {a : α} {b : β} {post : World → α → β → Prop} (holds : post w a b) :
    Tied ρ w m m' (pure a) (pure b) post := .ok (.refl t) holds

theorem fault {post : World → α → β → Prop} (line : Nat) (fault : RuntimeFault) :
    Tied ρ w m m' (Run.fault line fault) (Run.fault line fault) post := .error (.refl t) .same

theorem ofExcept (result : Except RuntimeError α) :
    Tied ρ w m m' (Run.ofExcept result) (Run.ofExcept result) Same := by
  cases result with
  | ok a => exact .ok (.refl t) rfl
  | error e => exact .error (.refl t) .same

theorem environment {layers : List Layer} (level : Level w m m' layers) :
    Tied ρ w m m' Run.environment Run.environment fun v id twin => v id = some ⟨layers, twin⟩ := .ok (.refl t) level

theorem newFrame {layers : List Layer} {parent parent' : FrameId} (found : w parent = some ⟨layers, parent'⟩)
    (renamed : Bool) : Tied ρ w m m' (Run.newFrame parent) (Run.newFrame parent')
      fun v id twin => v id = some ⟨.shared renamed :: layers, twin⟩ :=
  .ok ⟨leAdd t.frames.unknown _, t.addShared found renamed, rfl, rfl⟩ (addHere _ _ _)

theorem define {renamed : Bool} {id twin : FrameId} (mate : w.Mate renamed id twin) (name : String) (value : Value) :
    Tied ρ w m m' (Run.define id name value) (Run.define twin (ρ.spell renamed name) value) Same :=
  .ok ⟨.refl w, t.define mate name value, rfl, rfl⟩ rfl

theorem defineHere {layers : List Layer} (level : Level w m m' layers) {renamed : Bool}
    (spelled : Layer.innermost layers = some renamed) (name : String) (value : Value) :
    Tied ρ w m m' (Run.defineHere name value) (Run.defineHere (ρ.spell renamed name) value) Same :=
  define t ⟨layers, level, spelled⟩ name value

theorem newFunction {c c' : Callable} (like : CallableLike ρ w c c') :
    Tied ρ w m m' (Run.newFunction c) (Run.newFunction c') Same :=
  .ok ⟨.refl w, t.addCallable like, rfl, rfl⟩ (congrArg (fun size => Value.function ⟨size⟩) t.callableCount)

theorem newClass {c c' : Class} (like : ClassLike ρ w c c') : Tied ρ w m m' (Run.newClass c) (Run.newClass c') Same :=
  .ok ⟨.refl w, t.addClass like, rfl, rfl⟩ (congrArg (fun size => Value.classObject ⟨size⟩) t.classCount)

theorem newInstance (cls : ClassId) : Tied ρ w m m' (Run.newInstance cls) (Run.newInstance cls) Same :=
  .ok ⟨.refl w, t.addInstance ⟨cls, .empty⟩, rfl, rfl⟩
    (congrArg (fun all : Array Instance => InstanceId.mk all.size) t.instances)

theorem setField (id : InstanceId) (name : String) (value : Value) :
    Tied ρ w m m' (Run.setField id name value) (Run.setField id name value) Same :=
  .ok ⟨.refl w, t.setField id name value, rfl, rfl⟩ rfl

theorem setLast (value : Value) : Tied ρ w m m' (Run.setLast value) (Run.setLast value) Same :=
  .ok ⟨.refl w, { t with lastValue := rfl }, rfl, rfl⟩ rfl

theorem write (value : Value) (line : Nat) : Tied ρ w m m' (Run.write value line) (Run.write value line) Same := by
  have later : Twins ρ w { m with outputFault := m.outputFault.advance }
      { m' with outputFault := m'.outputFault.advance } :=
    { t with outputFault := congrArg WriteFaults.advance t.outputFault }
  unfold Tied Run.write
  rw [t.outputFault] at later ⊢
  dsimp only
  cases m.outputFault.reason? with
  | some reason => exact .error ⟨.refl w, later, rfl, rfl⟩ .same
  | none =>
    dsimp only
    rw [t.display, t.output]
    exact .ok ⟨.refl w, { later with output := rfl }, rfl, rfl⟩ rfl

theorem callNative (n : Native) (arguments : List Value) (line : Nat) :
    Tied ρ w m m' (Run.callNative n arguments line) (Run.callNative n arguments line) Same := by
  have later : Twins ρ w { m with clock := m.clock.tick } { m' with clock := m'.clock.tick } :=
    { t with clock := congrArg Clock.tick t.clock }
  unfold Tied Run.callNative
  rw [t.hostView]
  dsimp only
  cases n.run m.hostView arguments with
  | ok value => exact .ok ⟨.refl w, later, rfl, rfl⟩ rfl
  | error message => exact .error ⟨.refl w, later, rfl, rfl⟩ .same

theorem findMethod (cls : ClassId) (name : String) :
    Tied ρ w m m' (Run.findMethod? cls name) (Run.findMethod? cls name) fun v => Option.Rel (MethodLike ρ v) :=
  .ok (.refl t) (t.findMethod cls name)

theorem callee (value : Value) :
    Tied ρ w m m' (Run.callee? value) (Run.callee? value) fun v => Option.Rel (CalleeLike ρ v) :=
  .ok (.refl t) (t.callee value)

theorem inNewFrame {action : Run α} {action' : Run β} {post : World → α → β → Prop} {layers : List Layer}
    {parent parent' : FrameId} (found : w parent = some ⟨layers, parent'⟩) (renamed : Bool)
    (h : ∀ v n n', w.Le v → Twins ρ v n n' → Level v n n' (.shared renamed :: layers) → Tied ρ v n n' action action' post) :
    Tied ρ w m m' (Run.inNewFrame parent action) (Run.inNewFrame parent' action') post := by
  refine bind (newFrame t found renamed) ?_
  intro v n n' id twin after linked
  exact within (h _ _ _ after.le { after.twins with } linked)

theorem withinExtra {action : Run α} {action' : Run β} {post : World → α → β → Prop} {layers : List Layer}
    (level : Level w m m' layers)
    (h : ∀ v n n', w.Le v → Twins ρ v n n' → Level v n n' (.extra :: layers) → Tied ρ v n n' action action' post) :
    Tied ρ (w.add m.heap.frames.nextId ⟨.extra :: layers, m'.environment⟩) (m.addFrame m.environment) m'
      (Run.within m.heap.frames.nextId action) action' post := by
  have le := leAdd t.frames.unknown ⟨.extra :: layers, m'.environment⟩
  have inside := h _ { m.addFrame m.environment with environment := m.heap.frames.nextId } m' le
    { t.addExtra level with } (addHere _ _ _)
  unfold Tied at inside
  unfold Tied Run.within
  dsimp only
  generalize action _ = result at inside ⊢
  generalize action' m' = result' at inside ⊢
  cases inside with
  | ok after holds => exact .ok ⟨after.le, { after.twins with }, rfl, after.there⟩ holds
  | error after like => exact .error ⟨after.le, { after.twins with }, rfl, after.there⟩ like
  | exhausted => exact .exhausted

theorem inExtraFrame {action : Run α} {action' : Run β} {post : World → α → β → Prop} {layers : List Layer}
    (level : Level w m m' layers)
    (h : ∀ v n n', w.Le v → Twins ρ v n n' → Level v n n' (.extra :: layers) → Tied ρ v n n' action action' post) :
    Tied ρ w m m' (Run.inNewFrame m.environment action) action' post :=
  (withinExtra t level h).since ⟨leAdd t.frames.unknown _, t.addExtra level, rfl, rfl⟩

theorem outermost : m.heap.frames.outermost m.globals = m.globals ∧ m'.heap.frames.outermost m'.globals = m.globals := by
  obtain ⟨_, frame, here, there, _⟩ := t.frames.fits _ _ t.root
  have top := t.rootParent
  have top' : m'.heap.frames.parent? m.globals = none := by
    rw [Frames.parent?, here] at top
    rw [Frames.parent?, there]
    exact top
  rw [t.globals]
  exact ⟨Frames.climbTop top _, Frames.climbTop top' _⟩

theorem getAt {layers : List Layer} {id twin : FrameId} (found : w id = some ⟨layers, twin⟩) {depth depth' : Nat}
    {renamed : Bool} (shifted : Layer.shift layers depth = some (depth', renamed)) {name : String}
    (known : renamed = true → ρ.known name) (line : Nat) :
    Tied ρ w m m' (Run.ofExcept (m.heap.frames.getAt id depth name line))
      (Run.ofExcept (m'.heap.frames.getAt twin depth' (ρ.spell renamed name) line)) Same := by
  have led := t.frames.ancestors found shifted
  unfold Frames.getAt
  generalize m.heap.frames.ancestor? id depth = here at led ⊢
  generalize m'.heap.frames.ancestor? twin depth' = there at led ⊢
  cases led with
  | none => exact .error (.refl t) (undefinedLike known)
  | @some here there mate =>
    rw [Option.bind_some, Option.bind_some, t.frames.get mate]
    cases m.heap.frames.get? here name with
    | none => exact .error (.refl t) (undefinedLike known)
    | some value => exact .ok (.refl t) rfl

theorem lookUp {layers : List Layer} (level : Level w m m' layers) {name name' : Ident} {slot slot' : Depth}
    (use : UseLike ρ layers name slot name' slot') :
    Tied ρ w m m' (Run.lookUp name slot) (Run.lookUp name' slot') Same := by
  cases slot with
  | some depth =>
    obtain ⟨depth', renamed, shifted, rfl, rfl, known⟩ := use
    exact getAt t level shifted known name.line
  | none =>
    obtain ⟨rfl, rfl⟩ := use
    obtain ⟨top, top'⟩ := outermost t
    have got : m'.heap.frames.get? m.globals name'.name = m.heap.frames.get? m.globals name'.name :=
      t.frames.get ⟨[], t.root, rfl⟩ name'.name
    have same : m'.heap.frames.getGlobal m'.globals name'.name name'.line =
        m.heap.frames.getGlobal m.globals name'.name name'.line := by
      unfold Frames.getGlobal
      rw [top, top', got]
    have run := ofExcept t (m.heap.frames.getGlobal m.globals name'.name name'.line)
    unfold Tied Run.lookUp at *
    dsimp only
    rw [same]
    exact run

omit t in
theorem filterMates (frames : FramesFit ρ w m.heap.frames m'.heap.frames) {renamed : Bool} (name : String)
    {here there : Option FrameId} (led : Option.Rel (w.Mate renamed) here there) :
    Option.Rel (w.Mate renamed) (here.filter (m.heap.frames.contains · name))
      (there.filter (m'.heap.frames.contains · (ρ.spell renamed name))) := by
  cases led with
  | none => exact .none
  | @some id twin mate =>
    simp only [Option.filter_some, Frames.contains, frames.get mate]
    split
    · exact .some mate
    · exact .none

theorem holder {layers : List Layer} (level : Level w m m' layers) {name name' : Ident} {slot slot' : Depth}
    (use : UseLike ρ layers name slot name' slot') :
    ∃ renamed, name' = ρ.ident renamed name ∧ (renamed = true → ρ.known name.name) ∧
      Tied ρ w m m' (Run.holder? name slot) (Run.holder? name' slot') fun v => Option.Rel (v.Mate renamed) := by
  cases slot with
  | some depth =>
    obtain ⟨depth', renamed, shifted, rfl, rfl, known⟩ := use
    exact ⟨renamed, rfl, known, .ok (.refl t) (filterMates t.frames name.name (t.frames.ancestors level shifted))⟩
  | none =>
    obtain ⟨rfl, rfl⟩ := use
    obtain ⟨top, top'⟩ := outermost t
    refine ⟨false, rfl, Bool.noConfusion, .ok (.refl t) (filterMates t.frames name'.name ?_)⟩
    rw [top, top']
    exact .some ⟨[], t.root, rfl⟩

theorem assign {layers : List Layer} (level : Level w m m' layers) {name name' : Ident} {slot slot' : Depth}
    (use : UseLike ρ layers name slot name' slot') (value : Value) :
    Tied ρ w m m' (Run.assign name value slot) (Run.assign name' value slot') Same := by
  obtain ⟨renamed, rfl, known, held⟩ := holder t level use
  refine bind held ?_
  intro v n n' here there after mates
  cases mates with
  | none => exact .error (.refl after.twins) (undefinedLike known)
  | some mate => exact define after.twins mate name.name value

theorem bindMethod {f f' : Function} (like : MethodLike ρ w f f') (receiver : InstanceId) :
    Tied ρ w m m' (f.bind receiver) (f'.bind receiver) (FunctionLike ρ) := by
  obtain ⟨initializes, layers, found, code⟩ := like
  refine bind (newFrame t found false) ?_
  intro v n n' id twin after linked
  refine next (define after.twins ⟨_, linked, rfl⟩ "this" (.instanceObject receiver)) ?_
  intro u l l' _ after'
  exact pure after'.twins ⟨initializes, _, after'.le _ _ linked, code, fun _ => rfl⟩

theorem receiver {f f' : Function} (like : FunctionLike ρ w f f') (initializer : f.isInitializer = true) (line : Nat) :
    Tied ρ w m m' (f.receiver line) (f'.receiver line) Same := by
  obtain ⟨_, layers, found, _, bound⟩ := like
  have spelled := bound initializer
  have shifted : Layer.shift layers 0 = some (0, false) := by
    cases layers with
    | nil => rfl
    | cons layer layers =>
      cases layer with
      | shared renamed =>
        cases spelled
        rfl
      | extra => cases spelled
  exact getAt t found shifted Bool.noConfusion line

theorem bindParameters {renamed : Bool} {id twin : FrameId} (mate : w.Mate renamed id twin) (params : List Ident)
    (arguments : List Value) :
    Tied ρ w m m' (Run.bindParameters id params arguments)
      (Run.bindParameters twin (params.map (ρ.ident renamed)) arguments) Same := by
  induction params generalizing w m m' arguments with
  | nil => exact pure t rfl
  | cons param params ih =>
    cases arguments with
    | nil => exact pure t rfl
    | cons argument arguments =>
      refine next (define t mate param.name argument) ?_
      intro v n n' _ after
      exact ih after.twins (after.le.mate mate) arguments

theorem instanceProperty (id : InstanceId) (name : Ident) :
    Tied ρ w m m' (Run.instanceProperty id name) (Run.instanceProperty id name) Same := by
  unfold Tied Run.instanceProperty Heap.instance?
  rw [t.instances]
  cases m.heap.instances[id.index]? with
  | none => exact fault t name.line _
  | some i =>
    dsimp only
    cases i.fields.find? name.name with
    | some value => exact .ok (.refl t) rfl
    | none =>
      have found := t.findMethod i.cls name.name
      dsimp only
      generalize m.heap.findMethod? i.cls name.name = here at found ⊢
      generalize m'.heap.findMethod? i.cls name.name = there at found ⊢
      cases found with
      | none => exact fault t name.line _
      | some like =>
        refine bind (bindMethod t like id) ?_
        intro v n n' f f' after bound
        exact newFunction after.twins (.function bound)

theorem classProperty (id : ClassId) (name : Ident) :
    Tied ρ w m m' (Run.classProperty id name) (Run.classProperty id name) Same := by
  have found := t.findClassMethod id name.name
  unfold Tied Run.classProperty
  generalize m.heap.findClassMethod? id name.name = here at found ⊢
  generalize m'.heap.findClassMethod? id name.name = there at found ⊢
  cases found with
  | none => exact fault t name.line _
  | some like => exact newFunction t (.function like)

theorem property (object : Value) (name : Ident) :
    Tied ρ w m m' (Run.property object name) (Run.property object name) Same := by
  cases object with
  | instanceObject id => exact instanceProperty t id name
  | classObject id => exact classProperty t id name
  | _ => exact fault t name.line _

end Tied
end Treewalk
