import Treewalk.Proofs.Renaming.Resolved

/-! The walk over the new program goes as that over the old one, phrase by phrase: it ends in the renamed tree with the
same slots, and the tree is like the old one for two runs side by side. -/
namespace Treewalk

open Walk

namespace Renaming

abbrev Goes (r : Renaming) (sites : List Site) (c : ScopeContext) (w : Walk α) (w' : Walk β) (b : β) : Prop :=
  Along (r.respell sites) c w w' b

namespace Goes
variable {r : Renaming} {sites : List Site} {c : ScopeContext}

theorem opening {w : Walk α} {w' : Walk β} {b : β} {scope : Scope} (site : Site)
    (plain : r.spelling.table (r.hits site) scope = scope)
    (inner : r.Goes (site :: sites) { c with scopes := scope :: c.scopes } w w' b) :
    r.Goes sites c (Walk.inScope scope w) (Walk.inScope scope w') b := by
  refine Along.inScope ?opens ?closes inner
  case opens => exact congrArg (· :: r.respell sites c.scopes) plain
  case closes =>
    intro scopes
    cases scopes with
    | nil => exact List.zipWith_nil_right.symm
    | cons head tail => rfl

theorem sameScope {w : Walk α} {w' : Walk β} {b : β} {site other : Site} (same : r.hits site = r.hits other)
    (goes : r.Goes (site :: sites) c w w' b) : r.Goes (other :: sites) c w w' b := by
  have respelled : r.respell (other :: sites) = r.respell (site :: sites) := by
    funext scopes
    cases scopes with
    | nil => rfl
    | cons scope outer => simp only [respell, List.zipWith_cons_cons, same]
  unfold Goes
  rw [respelled]
  exact goes

end Goes

/- No other declaration of the old name is in the scope of the variable, and its site is not that of a class. -/
structure Sole (r : Renaming) (program : Program) : Prop where
  receiver : ∀ address, r.hits ⟨address, .receiver⟩ = false
  classSide : ∀ address, r.hits ⟨address, .classSide⟩ = false
  functions : ∀ {address decl}, phraseAt [program] address = some (.stmt (.funDecl decl)) →
    r.declared (enclosing [program] address) = true → decl.label ≠ r.old
  classes : ∀ {address decl}, phraseAt [program] address = some (.stmt (.classDecl decl)) →
    r.declared (enclosing [program] address) = true → decl.name.name ≠ r.old

structure Found (program : Program) (address : Address) (sites : List Site) (phrase : Phrase) : Prop where
  here : phraseAt [program] address = some phrase
  around : enclosing [program] address = sites

theorem Found.child {program : Program} {address : Address} {sites : List Site} {phrase part : Phrase}
    (found : Found program address sites phrase) (step : Step) (child : phrase.child? step = some part) :
    Found program (step :: address) (phrase.opens address step ++ sites) part := by
  refine ⟨(phraseChild found.here step).trans child, ?_⟩
  rw [enclosing, opened, found.here, found.around]

theorem Found.next {program : Program} {address : Address} {sites : List Site} {step : Nat → Step} {phrase : α → Phrase}
    {index : Nat} {first : α} {rest : List α}
    (found : ∀ i x, (first :: rest)[i]? = some x → Found program (step (index + i) :: address) sites (phrase x)) :
    ∀ i x, rest[i]? = some x → Found program (step (index + 1 + i) :: address) sites (phrase x) := by
  intro i x here
  rw [Nat.add_assoc, Nat.add_comm 1 i]
  exact found (i + 1) x here

theorem Found.listed {program : Program} {address : Address} {sites inner : List Site} {whole : Phrase} {items : List α}
    {step : Nat → Step} {phrase : α → Phrase} (found : Found program address sites whole)
    (children : ∀ i, whole.child? (step i) = items[i]?.map phrase)
    (opens : ∀ i, whole.opens address (step i) ++ sites = inner) :
    ∀ i x, items[i]? = some x → Found program (step (0 + i) :: address) inner (phrase x) := by
  intro i x here
  have child : whole.child? (step i) = some (phrase x) := by rw [children, here, Option.map_some]
  rw [Nat.zero_add, ← opens i]
  exact found.child (step i) child

section Pieces
variable {r : Renaming} {sites : List Site} {c : ScopeContext}

theorem Fits.steady (fits : r.Fits sites c) {w : Walk α} (steady : w.Steady) : r.Fits sites (w.after c) :=
  fits.introduced (steady c) List.not_mem_nil

theorem Fits.opened (fits : r.Fits sites c) (site : Site) {scope : Scope} (fresh : scope.contains r.new = false) :
    r.Fits (site :: sites) { c with scopes := scope :: c.scopes } :=
  ⟨congrArg (· + 1) fits.length, List.forall_mem_cons.mpr ⟨fresh, fits.fresh⟩⟩

theorem Fits.openEmpty (fits : r.Fits sites c) (site : Site) :
    r.Fits (site :: sites) { c with scopes := .empty :: c.scopes } := fits.opened site rfl

theorem Fits.declaring (fits : r.Fits sites c) {name : Ident} (other : name.name ≠ r.new) :
    r.Fits sites ((declare name).after c) := by
  obtain ⟨scopes, kind, within, errors⟩ := c
  rw [declareAfter]
  cases scopes with
  | nil => exact fits
  | cons scope outer =>
    obtain ⟨first, rest⟩ := List.forall_mem_cons.mp fits.fresh
    dsimp only
    split
    · exact ⟨fits.length, fits.fresh⟩
    · refine ⟨fits.length, List.forall_mem_cons.mpr ⟨?_, rest⟩⟩
      rw [Table.containsInsert, first, beq_eq_false_iff_ne.mpr (Ne.symm other)]
      rfl

theorem cleanBefore {names : List String} {c' : ScopeContext} (moves : Introduces names c c') (clean : c'.errors = []) :
    c.errors = [] := by
  have before := moves.errors
  rw [clean] at before
  exact List.prefix_nil.mp before

theorem cleanDefine (name : Ident) (clean : ((define name).after c).errors = []) : c.errors = [] := by
  rw [defineAfter] at clean
  exact clean

theorem writeKept {name : Ident} (different : r.declared sites = true → name.name ≠ r.old) :
    r.write (r.declared sites) name = name := by
  unfold write
  cases here : r.declared sites with
  | false => rfl
  | true =>
    rw [beq_eq_false_iff_ne.mpr (different here)]
    rfl

theorem namedGoes (fits : r.Fits sites c) {name : Ident} (other : name.name ≠ r.new)
    (kept : r.write (r.declared sites) name = name) (clean : ((declare name).after c).errors = [])
    {w : Walk α} {w' : Walk β} {b : β}
    (inner : r.Goes sites ((define name).after ((declare name).after c)) w w' b) :
    r.Goes sites c (do declare name; define name; w) (do declare name; define name; w') b := by
  have declares := declareMoved fits other clean
  have defines := defineMoved (fits.declaring other) other
  rw [kept] at declares defines
  have first : r.Goes sites c (declare name) (declare name) () := declares
  have second : r.Goes sites _ (define name) (define name) () := defines
  exact first.bind (second.bind inner)

theorem declareAllGoes (fits : r.Fits sites c) {params : List Ident} (others : ∀ name ∈ params, name.name ≠ r.new)
    (clean : ((declareAll params).after c).errors = []) :
    r.Goes sites c (declareAll params) (declareAll (params.map (r.write (r.declared sites)))) () := by
  induction params generalizing c with
  | nil => rfl
  | cons name params ih =>
    obtain ⟨other, rest⟩ := List.forall_mem_cons.mp others
    have moves := movesDeclaredAlone name c
    have cleanAll : ((declareAll params).after ((define name).after ((declare name).after c))).errors = [] := clean
    have cleanHere : ((declare name).after c).errors = [] :=
      cleanDefine name (cleanBefore (movesDeclareAll params _) cleanAll)
    have first : r.Goes sites c (declare name) (declare _) () := declareMoved fits other cleanHere
    have second : r.Goes sites _ (define name) (define _) () := defineMoved (fits.declaring other) other
    have fits' : r.Fits sites ((define name).after ((declare name).after c)) :=
      fits.introduced moves (by simpa using Ne.symm other)
    exact first.bind (second.bind (ih fits' rest cleanAll))

end Pieces

end Renaming

theorem Stmt.declaresWords {s : Stmt} (proper : s.Proper) : ∀ name ∈ s.declares, name ∈ s.words := by
  intro name member
  by_cases declaring : s.Declaring
  · cases s with
    | varDecl ident initializer =>
      cases initializer with
      | none => exact member
      | some e => exact List.mem_cons.mpr (.inl (List.mem_singleton.mp member))
    | funDecl decl =>
      obtain ⟨ident, params, body, line⟩ := decl
      cases ident with
      | none => exact absurd rfl proper.1
      | some ident => exact List.mem_cons.mpr (.inl (List.mem_singleton.mp member))
    | classDecl decl =>
      obtain ⟨ident, superclass, methods, classMethods⟩ := decl
      exact List.mem_cons.mpr (.inl (List.mem_singleton.mp member))
    | _ => exact declaring.elim
  · rw [Stmt.undeclared proper declaring] at member
    exact absurd member List.not_mem_nil

open Renaming

def Expr.Carried (r : Renaming) (address : Address) (sites : List Site) (c : ScopeContext) (e : Expr) : Prop :=
  r.Goes sites c e.resolve ((e.resolve.result c).renamed r address sites).cleared.resolve
    ((e.resolve.result c).renamed r address sites) ∧
  (e.resolve.result c).Like r.spelling (r.layers sites) ((e.resolve.result c).renamed r address sites)

def Expr.CarriedAll (r : Renaming) (address : Address) (sites : List Site) (index : Nat) (c : ScopeContext)
    (es : List Expr) : Prop :=
  r.Goes sites c (Expr.resolveList es)
    (Expr.resolveList (Expr.clearedAll (Expr.renamedAll r address sites index ((Expr.resolveList es).result c))))
    (Expr.renamedAll r address sites index ((Expr.resolveList es).result c)) ∧
  Expr.LikeAll r.spelling (r.layers sites) ((Expr.resolveList es).result c)
    (Expr.renamedAll r address sites index ((Expr.resolveList es).result c))

def Stmt.Carried (r : Renaming) (address : Address) (sites : List Site) (c : ScopeContext) (s : Stmt) : Prop :=
  r.Goes sites c s.resolve ((s.resolve.result c).renamed r address sites).cleared.resolve
    ((s.resolve.result c).renamed r address sites) ∧
  (s.resolve.result c).Like r.spelling (r.layers sites) ((s.resolve.result c).renamed r address sites)

def Stmt.CarriedAll (r : Renaming) (address : Address) (sites : List Site) (index : Nat) (c : ScopeContext)
    (body : List Stmt) : Prop :=
  r.Goes sites c (Stmt.resolveList body)
    (Stmt.resolveList (Stmt.clearedAll (Stmt.renamedAll r address sites index ((Stmt.resolveList body).result c))))
    (Stmt.renamedAll r address sites index ((Stmt.resolveList body).result c)) ∧
  Stmt.LikeAll r.spelling (r.layers sites) ((Stmt.resolveList body).result c)
    (Stmt.renamedAll r address sites index ((Stmt.resolveList body).result c))

def FunctionDecl.Carried (r : Renaming) (address : Address) (sites : List Site) (c : ScopeContext)
    (kind : FunctionContext) (decl : FunctionDecl) : Prop :=
  r.Goes sites c (decl.resolve kind) (((decl.resolve kind).result c).renamed r address sites |>.cleared.resolve kind)
    (((decl.resolve kind).result c).renamed r address sites) ∧
  ((decl.resolve kind).result c).Like r.spelling (r.layers sites) (((decl.resolve kind).result c).renamed r address sites)

section Names
variable {r : Renaming} {sites : List Site} {c : ScopeContext}

theorem varCarried (fits : r.Fits sites c) {name : Ident} (other : name.name ≠ r.new)
    (clean : ((Expr.var name none).resolve.after c).errors = []) {address : Address} :
    (Expr.var name none).Carried r address sites c := by
  have cleanHere := cleanBefore (steadySlot name none _) clean
  have goes : r.Goes sites c (checkInitialized name) (checkInitialized _) () := initializedMoved fits other cleanHere
    (r.bound sites ((slot name none).result ((checkInitialized name).after c)))
  have goes' := slotMoved (fits.steady (steadyCheckInitialized name)) other
  exact ⟨goes.bind (goes'.bind .pure), _, _, rfl, r.useLike sites other _⟩

theorem thisKeeps (r : Renaming) : Scope.ofThis.contains r.new = false := by
  have absent := Table.containsInsert Table.empty "this" r.new true
  rw [beq_eq_false_iff_ne.mpr r.newName] at absent
  exact absent

theorem checkSuperclassGoes {name superclass : Ident} (other : name.name ≠ r.new) {slot slot' : Depth} (here : Bool)
    (clean : ((checkSuperclass name (.var superclass slot)).after c).errors = []) :
    r.Goes sites c (checkSuperclass name (.var superclass slot))
      (checkSuperclass name (.var (r.write here superclass) slot'))
      () := by
  rw [superclassErrors] at clean
  have different : (superclass.name == name.name) = false := by
    cases same : superclass.name == name.name with
    | false => rfl
    | true =>
      have noted := (List.append_eq_nil_iff.mp clean).2
      simp [ownSuperclass, note, same] at noted
  have different' : ((r.write here superclass).name == name.name) = false := by
    unfold write
    split
    · exact beq_eq_false_iff_ne.mpr (Ne.symm other)
    · exact different
  have calm : checkSuperclass name (.var superclass slot) = pure () := by
    unfold checkSuperclass
    dsimp only
    rw [different]
    rfl
  have calm' : checkSuperclass name (.var (r.write here superclass) slot') = pure () := by
    unfold checkSuperclass
    dsimp only
    rw [different']
    rfl
  rw [calm, calm']
  exact .pure

theorem superclassCarried (fits : r.Fits sites c) {name : Ident} (other : name.name ≠ r.new) {superclass : Option Expr}
    (proper : ∀ e, superclass = some e → ∃ ident, e = .var ident none ∧ ident.name ≠ "this")
    (fresh : r.new ∉ ClassDecl.wordsSuperclass superclass)
    (clean : ((ClassDecl.resolveSuperclass name superclass).after c).errors = []) (address : Address) :
    r.Goes sites c (ClassDecl.resolveSuperclass name superclass)
      (ClassDecl.resolveSuperclass name (ClassDecl.clearedSuperclass (ClassDecl.renamedSuperclass r address sites
        ((ClassDecl.resolveSuperclass name superclass).result c))))
      (ClassDecl.renamedSuperclass r address sites ((ClassDecl.resolveSuperclass name superclass).result c)) ∧
    ClassDecl.LikeSuperclass r.spelling (r.layers sites) ((ClassDecl.resolveSuperclass name superclass).result c)
      (ClassDecl.renamedSuperclass r address sites ((ClassDecl.resolveSuperclass name superclass).result c)) := by
  cases superclass with
  | none => exact ⟨rfl, rfl⟩
  | some e =>
    obtain ⟨ident, rfl, _⟩ := proper e rfl
    have cleanHere : ((checkSuperclass name (.var ident none)).after c).errors = [] :=
      cleanBefore ((Expr.var ident none).resolveSteady _) clean
    have inner : (Expr.var ident none).Carried r (.superclass :: address) sites _ :=
      varCarried (fits.steady (steadyCheckSuperclass name (.var ident none)))
        (fun same => fresh (List.mem_singleton.mpr same.symm)) clean
    obtain ⟨goes, like⟩ := inner
    exact ⟨(checkSuperclassGoes other _ cleanHere).bind (goes.bind .pure), _, rfl, like⟩

end Names

section Walks
variable {r : Renaming} {program : Program}

mutual

theorem Expr.carried (sole : r.Sole program) : ∀ (e : Expr) {address : Address} {sites : List Site} {c : ScopeContext},
    Found program address sites (.expr e) → r.Fits sites c → e.Proper → r.new ∉ e.words →
    (e.resolve.after c).errors = [] → e.Carried r address sites c
  | .literal value line, _, _, _, _, _, _, _, _ => ⟨rfl, rfl⟩
  | .unary op right line, _, _, _, found, fits, proper, fresh, clean => by
    obtain ⟨goes, like⟩ := right.carried sole (found.child (.item 0) rfl) fits proper fresh clean
    exact ⟨goes.bind .pure, _, rfl, like⟩
  | .binary left op right line, _, _, _, found, fits, proper, fresh, clean => by
    obtain ⟨goes, like⟩ := left.carried sole (found.child (.item 0) rfl) fits proper.1
      (fun member => fresh (List.mem_append_left _ member)) (cleanBefore (right.resolveSteady _) clean)
    obtain ⟨goes', like'⟩ := right.carried sole (found.child (.item 1) rfl) (fits.steady left.resolveSteady) proper.2
      (fun member => fresh (List.mem_append_right _ member)) clean
    exact ⟨goes.bind (goes'.bind .pure), _, _, rfl, like, like'⟩
  | .logical left op right line, _, _, _, found, fits, proper, fresh, clean => by
    obtain ⟨goes, like⟩ := left.carried sole (found.child (.item 0) rfl) fits proper.1
      (fun member => fresh (List.mem_append_left _ member)) (cleanBefore (right.resolveSteady _) clean)
    obtain ⟨goes', like'⟩ := right.carried sole (found.child (.item 1) rfl) (fits.steady left.resolveSteady) proper.2
      (fun member => fresh (List.mem_append_right _ member)) clean
    exact ⟨goes.bind (goes'.bind .pure), _, _, rfl, like, like'⟩
  | .ternary condition thenBranch elseBranch line, _, _, _, found, fits, proper, fresh, clean => by
    have cleanThen := cleanBefore (elseBranch.resolveSteady _) clean
    have fitsThen := fits.steady condition.resolveSteady
    obtain ⟨goes, like⟩ := condition.carried sole (found.child (.item 0) rfl) fits proper.1
      (fun member => fresh (List.mem_append_left _ member)) (cleanBefore (thenBranch.resolveSteady _) cleanThen)
    obtain ⟨goes', like'⟩ := thenBranch.carried sole (found.child (.item 1) rfl) fitsThen proper.2.1
      (fun member => fresh (List.mem_append_right _ (List.mem_append_left _ member))) cleanThen
    obtain ⟨goes'', like''⟩ := elseBranch.carried sole (found.child (.item 2) rfl) (fitsThen.steady thenBranch.resolveSteady)
      proper.2.2 (fun member => fresh (List.mem_append_right _ (List.mem_append_right _ member))) clean
    exact ⟨goes.bind (goes'.bind (goes''.bind .pure)), _, _, _, rfl, like, like', like''⟩
  | .grouping inner, _, _, _, found, fits, proper, fresh, clean => by
    obtain ⟨goes, like⟩ := inner.carried sole (found.child (.item 0) rfl) fits proper fresh clean
    exact ⟨goes.bind .pure, _, rfl, like⟩
  | .var name depth, _, _, _, _, fits, proper, fresh, clean => by
    obtain ⟨_, rfl⟩ := proper
    exact varCarried fits (fun same => fresh (List.mem_singleton.mpr same.symm)) clean
  | .assign name value depth, _, sites, c, found, fits, proper, fresh, clean => by
    obtain ⟨_, rfl, proper⟩ := proper
    have other : name.name ≠ r.new := fun same => fresh (List.mem_cons.mpr (.inl same.symm))
    obtain ⟨goes, like⟩ := value.carried sole (found.child (.item 0) rfl) fits proper
      (fun member => fresh (List.mem_cons_of_mem _ member)) (cleanBefore (steadySlot name none _) clean)
    have goes' := slotMoved (fits.steady value.resolveSteady) other
    exact ⟨goes.bind (goes'.bind .pure), _, _, _, rfl, r.useLike sites other _, like⟩
  | .call callee arguments line, address, sites, _, found, fits, proper, fresh, clean => by
    obtain ⟨goes, like⟩ := callee.carried sole (found.child (.item 0) rfl) fits proper.1
      (fun member => fresh (List.mem_append_left _ member)) (cleanBefore (Expr.resolveListSteady arguments _) clean)
    have others : ∀ i e, arguments[i]? = some e → Found program (.item (1 + i) :: address) sites (.expr e) := by
      intro i e here
      refine found.child (.item (1 + i)) ?_
      rw [Nat.add_comm]
      exact (List.getElem?_map ..).trans (congrArg _ here)
    obtain ⟨goes', like'⟩ := Expr.carriedAll sole arguments others (fits.steady callee.resolveSteady) proper.2
      (fun member => fresh (List.mem_append_right _ member)) clean
    exact ⟨goes.bind (goes'.bind .pure), _, _, rfl, like, like'⟩
  | .get object name, _, _, _, found, fits, proper, fresh, clean => by
    obtain ⟨goes, like⟩ := object.carried sole (found.child (.item 0) rfl) fits proper fresh clean
    exact ⟨goes.bind .pure, _, rfl, like⟩
  | .set object name value, _, _, _, found, fits, proper, fresh, clean => by
    obtain ⟨goes, like⟩ := object.carried sole (found.child (.item 0) rfl) fits proper.1
      (fun member => fresh (List.mem_append_left _ member)) (cleanBefore (value.resolveSteady _) clean)
    obtain ⟨goes', like'⟩ := value.carried sole (found.child (.item 1) rfl) (fits.steady object.resolveSteady) proper.2
      (fun member => fresh (List.mem_append_right _ member)) clean
    exact ⟨goes.bind (goes'.bind .pure), _, _, rfl, like, like'⟩
  | .this keyword depth, _, sites, c, _, fits, proper, _, _ => by
    obtain ⟨this, rfl⟩ := proper
    have goes : r.Goes sites c (thisSlot keyword none) (thisSlot keyword none) _ := thisMoved fits this
    exact ⟨goes.bind .pure, _, _, rfl, r.thisLike sites this _⟩
  | .lambda decl, _, _, _, found, fits, proper, fresh, clean => by
    obtain ⟨goes, like⟩ := decl.carried sole (found.child .function rfl) fits proper fresh clean
    exact ⟨goes.bind .pure, _, rfl, like⟩
termination_by structural e => e

theorem Expr.carriedAll (sole : r.Sole program) :
    ∀ (es : List Expr) {address : Address} {sites : List Site} {index : Nat} {c : ScopeContext},
    (∀ i e, es[i]? = some e → Found program (.item (index + i) :: address) sites (.expr e)) → r.Fits sites c →
    Expr.ProperAll es → r.new ∉ Expr.wordsAll es → ((Expr.resolveList es).after c).errors = [] →
    Expr.CarriedAll r address sites index c es
  | [], _, _, _, _, _, _, _, _, _ => ⟨rfl, rfl⟩
  | e :: rest, _, _, _, _, found, fits, proper, fresh, clean => by
    obtain ⟨goes, like⟩ := e.carried sole (found 0 e rfl) fits proper.1
      (fun member => fresh (List.mem_append_left _ member)) (cleanBefore (Expr.resolveListSteady rest _) clean)
    obtain ⟨goes', like'⟩ := Expr.carriedAll sole rest (Found.next found) (fits.steady e.resolveSteady) proper.2
      (fun member => fresh (List.mem_append_right _ member)) clean
    exact ⟨goes.bind (goes'.bind .pure), _, _, rfl, like, like'⟩
termination_by structural es => es

theorem Stmt.carried (sole : r.Sole program) : ∀ (s : Stmt) {address : Address} {sites : List Site} {c : ScopeContext},
    Found program address sites (.stmt s) → r.Fits sites c → s.Proper → r.new ∉ s.words →
    (s.resolve.after c).errors = [] → s.Carried r address sites c
  | .expression value, _, _, _, found, fits, proper, fresh, clean => by
    obtain ⟨goes, like⟩ := value.carried sole (found.child (.item 0) rfl) fits proper fresh clean
    exact ⟨goes.bind .pure, _, rfl, like⟩
  | .print value, _, _, _, found, fits, proper, fresh, clean => by
    obtain ⟨goes, like⟩ := value.carried sole (found.child (.item 0) rfl) fits proper fresh clean
    exact ⟨goes.bind .pure, _, rfl, like⟩
  | .varDecl name none, _, sites, c, _, fits, _, fresh, clean => by
    have other : name.name ≠ r.new := fun same => fresh (List.mem_singleton.mpr same.symm)
    have cleanHere : ((declare name).after c).errors = [] := cleanDefine name clean
    have goes : r.Goes sites c (declare name) (declare _) () := declareMoved fits other cleanHere
    have goes' : r.Goes sites _ (define name) (define _) () := defineMoved (fits.declaring other) other
    have spelled := congrArg (Stmt.varDecl · none) (r.spells (r.declared sites) other).symm
    exact ⟨goes.bind (goes'.bind .pure), _, r.innermostLayers sites, spelled⟩
  | .varDecl name (some initializer), address, sites, c, found, fits, proper, fresh, clean => by
    have other : name.name ≠ r.new := fun same => fresh (List.mem_cons.mpr (.inl same.symm))
    have cleanInner : (initializer.resolve.after ((declare name).after c)).errors = [] := cleanDefine name clean
    have cleanHere := cleanBefore (initializer.resolveSteady _) cleanInner
    have goes : r.Goes sites c (declare name) (declare _) () := declareMoved fits other cleanHere
    obtain ⟨goes', like⟩ := initializer.carried sole (found.child .initializer rfl) (fits.declaring other) proper.2
      (fun member => fresh (List.mem_cons_of_mem _ member)) cleanInner
    have goes'' : r.Goes sites _ (define name) (define _) () :=
      defineMoved ((fits.declaring other).steady initializer.resolveSteady) other
    have spelled := congrArg (Stmt.varDecl · (some ((initializer.resolve.result ((declare name).after c)).renamed r
      (.initializer :: address) sites))) (r.spells (r.declared sites) other).symm
    exact ⟨goes.bind (goes'.bind (goes''.bind .pure)), _, _, r.innermostLayers sites, spelled, like⟩
  | .block body, address, sites, _, found, fits, proper, fresh, clean => by
    have items : ∀ i s, body[i]? = some s →
        Found program (.item (0 + i) :: address) (⟨address, .block⟩ :: sites) (.stmt s) :=
      found.listed (fun _ => List.getElem?_map ..) fun _ => rfl
    obtain ⟨goes, like⟩ := Stmt.carriedAll sole body items (fits.openEmpty ⟨address, .block⟩) proper fresh clean
    exact ⟨(Goes.opening _ rfl goes).bind .pure, _, _, rfl, like⟩
  | .ifElse condition thenBranch none, _, _, _, found, fits, proper, fresh, clean => by
    obtain ⟨goes, like⟩ := condition.carried sole (found.child (.item 0) rfl) fits proper.1
      (fun member => fresh (List.mem_append_left _ member)) (cleanBefore (thenBranch.resolveMoves _) clean)
    obtain ⟨goes', like'⟩ := thenBranch.carried sole (found.child (.item 1) rfl) (fits.steady condition.resolveSteady)
      proper.2.1 (fun member => fresh (List.mem_append_right _ member)) clean
    exact ⟨goes.bind (goes'.bind .pure), _, _, rfl, like, like'⟩
  | .ifElse condition thenBranch (some elseBranch), _, _, _, found, fits, proper, fresh, clean => by
    have cleanThen := cleanBefore (elseBranch.resolveMoves _) clean
    have fitsThen := fits.steady condition.resolveSteady
    obtain ⟨goes, like⟩ := condition.carried sole (found.child (.item 0) rfl) fits proper.1
      (fun member => fresh (List.mem_append_left _ member)) (cleanBefore (thenBranch.resolveMoves _) cleanThen)
    obtain ⟨goes', like'⟩ := thenBranch.carried sole (found.child (.item 1) rfl) fitsThen proper.2.1
      (fun member => fresh (List.mem_append_right _ (List.mem_append_left _ member))) cleanThen
    have fitsElse := fitsThen.introduced (thenBranch.resolveMoves _)
      (by rw [proper.2.2.1]; exact List.not_mem_nil)
    obtain ⟨goes'', like''⟩ := elseBranch.carried sole (found.child (.item 2) rfl) fitsElse proper.2.2.2.1
      (fun member => fresh (List.mem_append_right _ (List.mem_append_right _ member))) clean
    exact ⟨goes.bind (goes'.bind (goes''.bind .pure)), _, _, _, rfl, like, like', like''⟩
  | .whileLoop condition body, _, _, _, found, fits, proper, fresh, clean => by
    obtain ⟨goes, like⟩ := condition.carried sole (found.child (.item 0) rfl) fits proper.1
      (fun member => fresh (List.mem_append_left _ member)) (cleanBefore (body.resolveMoves _) clean)
    obtain ⟨goes', like'⟩ := body.carried sole (found.child (.item 1) rfl) (fits.steady condition.resolveSteady)
      proper.2.1 (fun member => fresh (List.mem_append_right _ member)) clean
    exact ⟨goes.bind (goes'.bind .pure), _, _, rfl, like, like'⟩
  | .funDecl ⟨none, _, _, _⟩, _, _, _, _, _, proper, _, _ => absurd rfl proper.1
  | .funDecl ⟨some name, params, body, line⟩, address, sites, c, found, fits, proper, fresh, clean => by
    have other : name.name ≠ r.new := fun same => fresh (List.mem_cons.mpr (.inl same.symm))
    have kept : r.write (r.declared sites) name = name :=
      writeKept fun here => sole.functions found.here (by rw [found.around]; exact here)
    have fitsInner := fits.introduced (movesDeclaredAlone name c) (by simpa using Ne.symm other)
    have cleanInner : ((FunctionDecl.resolve .function ⟨some name, params, body, line⟩).after
        ((define name).after ((declare name).after c))).errors = [] := clean
    have cleanHere : ((declare name).after c).errors = [] :=
      cleanDefine name (cleanBefore (FunctionDecl.resolveSteady .function ⟨some name, params, body, line⟩ _) cleanInner)
    obtain ⟨goes, like⟩ := FunctionDecl.carried sole ⟨some name, params, body, line⟩ (found.child .function rfl) fitsInner
      proper.2 (fun member => fresh (List.mem_cons_of_mem _ member)) cleanInner
    have label : r.spelling.spell (r.declared sites) name.name = name.name :=
      congrArg Ident.name ((r.spells (r.declared sites) other).trans kept)
    exact ⟨namedGoes fits other kept cleanHere (goes.bind .pure), _, _, rfl, r.innermostLayers sites, label, like⟩
  | .classDecl decl, _, _, _, found, fits, proper, fresh, clean => by
    obtain ⟨goes, renamed, spelled, kept, like⟩ := decl.carried sole found fits proper fresh clean
    exact ⟨goes.bind .pure, _, renamed, rfl, spelled, kept, like⟩
  | .returnStmt keyword none, _, _, _, _, _, _, _, _ => ⟨Along.bind (.checkReturn keyword) .pure, rfl⟩
  | .returnStmt keyword (some value), _, _, _, found, fits, proper, fresh, clean => by
    have fitsValue := (fits.steady (steadyCheckReturn keyword)).steady (steadyCheckReturnValue keyword)
    obtain ⟨goes, like⟩ := value.carried sole (found.child (.item 0) rfl) fitsValue proper fresh clean
    exact ⟨Along.bind (.checkReturn keyword) (.bind (.checkReturnValue keyword) (goes.bind .pure)), _, rfl, like⟩
termination_by structural s => s

theorem Stmt.carriedAll (sole : r.Sole program) :
    ∀ (body : List Stmt) {address : Address} {sites : List Site} {index : Nat} {c : ScopeContext},
    (∀ i s, body[i]? = some s → Found program (.item (index + i) :: address) sites (.stmt s)) → r.Fits sites c →
    Stmt.ProperAll body → r.new ∉ Stmt.wordsAll body → ((Stmt.resolveList body).after c).errors = [] →
    Stmt.CarriedAll r address sites index c body
  | [], _, _, _, _, _, _, _, _, _ => ⟨rfl, rfl⟩
  | s :: rest, _, _, _, _, found, fits, proper, fresh, clean => by
    obtain ⟨goes, like⟩ := s.carried sole (found 0 s rfl) fits proper.1
      (fun member => fresh (List.mem_append_left _ member)) (cleanBefore (Stmt.resolveListMoves rest _) clean)
    have fitsRest := fits.introduced (s.resolveMoves _)
      (fun member => fresh (List.mem_append_left _ (Stmt.declaresWords proper.1 _ member)))
    obtain ⟨goes', like'⟩ := Stmt.carriedAll sole rest (Found.next found) fitsRest proper.2
      (fun member => fresh (List.mem_append_right _ member)) clean
    exact ⟨goes.bind (goes'.bind .pure), _, _, rfl, like, like'⟩
termination_by structural body => body

theorem FunctionDecl.carried (sole : r.Sole program) :
    ∀ (decl : FunctionDecl) {kind : FunctionContext} {address : Address} {sites : List Site}
    {c : ScopeContext}, Found program address sites (.function kind decl) → r.Fits sites c → decl.Proper →
    r.new ∉ decl.words → ((decl.resolve kind).after c).errors = [] → decl.Carried r address sites c kind
  | ⟨name, params, body, line⟩, kind, address, sites, c, found, fits, proper, fresh, clean => by
    have others : ∀ param ∈ params, param.name ≠ r.new :=
      fun param member same => fresh (List.mem_append_left _ (same ▸ List.mem_map_of_mem member))
    have fitsParams : r.Fits (⟨address, .parameters⟩ :: sites) { c with function := kind, scopes := .empty :: c.scopes } :=
      Fits.openEmpty (c := { c with function := kind }) ⟨fits.length, fits.fresh⟩ _
    have fitsBody := (fitsParams.introduced (movesDeclareAll params _)
      (fun member => fresh (List.mem_append_left _ member))).openEmpty ⟨address, .body⟩
    have cleanParams : ((declareAll params).after
        { c with function := kind, scopes := .empty :: c.scopes }).errors = [] := by
      have before := cleanBefore (Stmt.resolveListMoves body { (declareAll params).after
        { c with function := kind, scopes := .empty :: c.scopes } with scopes := .empty :: ((declareAll params).after
          { c with function := kind, scopes := .empty :: c.scopes }).scopes }) clean
      exact before
    have items : ∀ i s, body[i]? = some s → Found program (.item (0 + i) :: address)
        (⟨address, .body⟩ :: ⟨address, .parameters⟩ :: sites) (.stmt s) :=
      found.listed (fun _ => List.getElem?_map ..) fun _ => rfl
    obtain ⟨goes, like⟩ := Stmt.carriedAll sole body items fitsBody proper.2
      (fun member => fresh (List.mem_append_right _ member)) clean
    have named : r.Goes (⟨address, .parameters⟩ :: sites) _ (declareAll params) _ () :=
      declareAllGoes fitsParams others cleanParams
    have spelled : params.map (r.write (r.hits ⟨address, .parameters⟩)) =
        params.map (r.spelling.ident (r.hits ⟨address, .parameters⟩)) :=
      List.map_congr_left fun param member => (r.spells _ (others param member)).symm
    exact ⟨.inFunction kind (Goes.opening _ rfl (named.bind ((Goes.opening _ rfl goes).bind .pure))), _, _, _,
      congrArg (FunctionDecl.mk name · _ line) spelled, like⟩
termination_by structural decl => decl

theorem FunctionDecl.carriedMethods (sole : r.Sole program) :
    ∀ (decls : List FunctionDecl) {address : Address} {sites : List Site} {index : Nat}
    {c : ScopeContext}, (∀ i f, decls[i]? = some f →
      Found program (.method (index + i) :: address) sites (.function f.methodContext f)) → r.Fits sites c →
    FunctionDecl.ProperAll decls → r.new ∉ FunctionDecl.wordsAll decls →
    ((FunctionDecl.resolveMethods decls).after c).errors = [] →
    r.Goes sites c (FunctionDecl.resolveMethods decls) (FunctionDecl.resolveMethods (FunctionDecl.clearedAll
      (FunctionDecl.renamedAll r .method address sites index ((FunctionDecl.resolveMethods decls).result c))))
      (FunctionDecl.renamedAll r .method address sites index ((FunctionDecl.resolveMethods decls).result c)) ∧
    FunctionDecl.LikeAll r.spelling (r.layers sites) ((FunctionDecl.resolveMethods decls).result c)
      (FunctionDecl.renamedAll r .method address sites index ((FunctionDecl.resolveMethods decls).result c))
  | [], _, _, _, _, _, _, _, _, _ => ⟨rfl, rfl⟩
  | ⟨name, params, body, line⟩ :: rest, _, _, _, _, found, fits, proper, fresh, clean => by
    obtain ⟨goes, like⟩ := FunctionDecl.carried sole ⟨name, params, body, line⟩ (found 0 _ rfl) fits proper.1
      (fun member => fresh (List.mem_append_left _ member))
      (cleanBefore (FunctionDecl.resolveMethodsSteady rest _) clean)
    obtain ⟨goes', like'⟩ := FunctionDecl.carriedMethods sole rest (Found.next found)
      (fits.steady (FunctionDecl.resolveSteady _ ⟨name, params, body, line⟩)) proper.2
      (fun member => fresh (List.mem_append_right _ member)) clean
    exact ⟨goes.bind (goes'.bind .pure), _, _, rfl, like, like'⟩
termination_by structural decls => decls

theorem FunctionDecl.carriedClassMethods (sole : r.Sole program) :
    ∀ (decls : List FunctionDecl) {address : Address} {sites : List Site}
    {index : Nat} {c : ScopeContext}, (∀ i f, decls[i]? = some f →
      Found program (.classMethod (index + i) :: address) sites (.function .classMethod f)) → r.Fits sites c →
    FunctionDecl.ProperAll decls → r.new ∉ FunctionDecl.wordsAll decls →
    ((FunctionDecl.resolveClassMethods decls).after c).errors = [] →
    r.Goes sites c (FunctionDecl.resolveClassMethods decls) (FunctionDecl.resolveClassMethods (FunctionDecl.clearedAll
      (FunctionDecl.renamedAll r .classMethod address sites index ((FunctionDecl.resolveClassMethods decls).result c))))
      (FunctionDecl.renamedAll r .classMethod address sites index ((FunctionDecl.resolveClassMethods decls).result c)) ∧
    FunctionDecl.LikeAll r.spelling (r.layers sites) ((FunctionDecl.resolveClassMethods decls).result c)
      (FunctionDecl.renamedAll r .classMethod address sites index ((FunctionDecl.resolveClassMethods decls).result c))
  | [], _, _, _, _, _, _, _, _, _ => ⟨rfl, rfl⟩
  | f :: rest, _, _, _, _, found, fits, proper, fresh, clean => by
    obtain ⟨goes, like⟩ := f.carried sole (found 0 f rfl) fits proper.1
      (fun member => fresh (List.mem_append_left _ member))
      (cleanBefore (FunctionDecl.resolveClassMethodsSteady rest _) clean)
    obtain ⟨goes', like'⟩ := FunctionDecl.carriedClassMethods sole rest (Found.next found)
      (fits.steady (f.resolveSteady _)) proper.2 (fun member => fresh (List.mem_append_right _ member)) clean
    exact ⟨goes.bind (goes'.bind .pure), _, _, rfl, like, like'⟩
termination_by structural decls => decls

theorem ClassDecl.carried (sole : r.Sole program) :
    ∀ (decl : ClassDecl) {address : Address} {sites : List Site} {c : ScopeContext},
    Found program address sites (.stmt (.classDecl decl)) → r.Fits sites c → decl.Proper → r.new ∉ decl.words →
    (decl.resolve.after c).errors = [] →
    r.Goes sites c decl.resolve ((decl.resolve.result c).renamed r address sites).cleared.resolve
      ((decl.resolve.result c).renamed r address sites) ∧
    ∃ renamed, Layer.innermost (r.layers sites) = some renamed ∧
      r.spelling.spell renamed (decl.resolve.result c).name.name = (decl.resolve.result c).name.name ∧
      (decl.resolve.result c).Like r.spelling (r.layers sites) ((decl.resolve.result c).renamed r address sites)
  | ⟨name, superclass, methods, classMethods⟩, address, sites, c, found, fits, proper, fresh, clean => by
    have other : name.name ≠ r.new := fun same => fresh (List.mem_cons.mpr (.inl same.symm))
    have kept : r.write (r.declared sites) name = name :=
      writeKept fun here => sole.classes found.here (by rw [found.around]; exact here)
    have fits₁ : r.Fits sites { c with inClass := true } := ⟨fits.length, fits.fresh⟩
    have fits₂ := fits₁.introduced (movesDeclaredAlone name _) (by simpa using Ne.symm other)
    have fits₃ := fits₂.steady (ClassDecl.resolveSuperclassSteady name superclass)
    have fits₄ := fits₃.opened ⟨address, .receiver⟩ (thisKeeps r)
    have fits₅ := fits₄.steady (FunctionDecl.resolveMethodsSteady methods)
    have cleanMethods := cleanBefore (FunctionDecl.resolveClassMethodsSteady classMethods _) clean
    have cleanSuperclass := cleanBefore (FunctionDecl.resolveMethodsSteady methods _) cleanMethods
    have cleanHere := cleanBefore (ClassDecl.resolveSuperclassSteady name superclass _) cleanSuperclass
    have cleanName : ((declare name).after { c with inClass := true }).errors = [] := cleanDefine name cleanHere
    obtain ⟨goes, like⟩ := superclassCarried fits₂ other proper.1
      (fun member => fresh (List.mem_cons_of_mem _ (List.mem_append_left _ member))) cleanSuperclass address
    have methodsFound : ∀ i f, methods[i]? = some f → Found program (.method (0 + i) :: address)
        (⟨address, .receiver⟩ :: sites) (.function f.methodContext f) :=
      found.listed (fun _ => List.getElem?_map ..) fun _ => rfl
    have classMethodsFound : ∀ i f, classMethods[i]? = some f → Found program (.classMethod (0 + i) :: address)
        (⟨address, .classSide⟩ :: sites) (.function .classMethod f) :=
      found.listed (fun _ => List.getElem?_map ..) fun _ => rfl
    obtain ⟨goes', like'⟩ := FunctionDecl.carriedMethods sole methods methodsFound fits₄ proper.2.1.1
      (fun member => fresh (List.mem_cons_of_mem _ (List.mem_append_right _ (List.mem_append_left _ member)))) cleanMethods
    obtain ⟨goes'', like''⟩ := FunctionDecl.carriedClassMethods sole classMethods classMethodsFound
      ⟨fits₅.length, fits₅.fresh⟩ proper.2.1.2
      (fun member => fresh (List.mem_cons_of_mem _ (List.mem_append_right _ (List.mem_append_right _ member)))) clean
    have plain : r.spelling.table (r.hits ⟨address, .receiver⟩) Scope.ofThis = Scope.ofThis := by
      rw [sole.receiver, r.spelling.tableKept]
    have side := goes''.sameScope ((sole.classSide address).trans (sole.receiver address).symm)
    have label : r.spelling.spell (r.declared sites) name.name = name.name :=
      congrArg Ident.name ((r.spells (r.declared sites) other).trans kept)
    rw [layers, List.map_cons, sole.receiver] at like'
    rw [layers, List.map_cons, sole.classSide] at like''
    exact ⟨.inClass (namedGoes fits₁ other kept cleanName
      (goes.bind (Goes.opening _ plain (goes'.bind (side.bind .pure))))), _,
      r.innermostLayers sites, label, _, _, _, rfl, like, like', like''⟩
termination_by structural decl => decl

end

end Walks
end Treewalk
