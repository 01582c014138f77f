import Composables.Proofs.Collection.Invariants

/-
  Which error is reported when documents cannot be collected. Their declarations are looked at in
  their order: the earliest one that says something else than the first of its name is reported
  (`ofDocuments_eq_error`). If there is none, the first operation that spreads an unknown name is,
  by its first such spread (`unknownSpread?_eq_some`); if that is all in order too, collecting comes
  to what ordering the fragments comes to (`ofDocuments_first_error`).
-/

namespace Composables

open Graphql (Definition Selection)

/-! ## First elements -/

section IsFirst

variable {α : Type} {p : α → Prop} {xs ys : List α} {x y : α}

/-- An element of a list has a property, and none in front of it has. -/
def IsFirst (p : α → Prop) (xs : List α) (x : α) : Prop :=
  p x ∧ ∃ front back, xs = front ++ x :: back ∧ ∀ y ∈ front, ¬ p y

theorem find?_eq_some_iff_isFirst {q : α → Bool} (h : ∀ a, q a = true ↔ p a) :
    xs.find? q = some x ↔ IsFirst p xs x := by
  simp [List.find?_eq_some_iff_append, IsFirst, ← h]

theorem exists_isFirst (h : ∃ x ∈ xs, p x) : ∃ x, IsFirst p xs x := by
  classical
  obtain ⟨x, hx, hp⟩ := h
  have hsome : (xs.find? fun y => decide (p y)).isSome :=
    List.find?_isSome.mpr ⟨x, hx, decide_eq_true hp⟩
  obtain ⟨y, hy⟩ := Option.isSome_iff_exists.mp hsome
  exact ⟨y, (find?_eq_some_iff_isFirst fun _ => decide_eq_true_iff).mp hy⟩

theorem IsFirst.append_right (h : IsFirst p xs x) : IsFirst p (xs ++ ys) x := by
  obtain ⟨hp, front, back, rfl, hfront⟩ := h
  exact ⟨hp, front, back ++ ys, by simp, hfront⟩

/-- The first element is looked for up to one that has the property, and no further. -/
theorem IsFirst.of_append (h : IsFirst p (xs ++ x :: ys) y) (hx : p x) :
    IsFirst p xs y ∨ y = x := by
  classical
  have hfind : ∀ zs, (zs.find? fun a => decide (p a)) = some y ↔ IsFirst p zs y :=
    fun zs => find?_eq_some_iff_isFirst fun _ => decide_eq_true_iff
  rw [← hfind, List.find?_append,
    List.find?_cons_of_pos (p := fun a => decide (p a)) (decide_eq_true hx),
    Option.or_eq_some_iff, hfind] at h
  exact h.imp_right fun h => (Option.some.inj h.2).symm

/-- The first of the elements that can be seen in some way is the first of all that look so. -/
theorem find?_filterMap_eq_some_iff {β : Type} {view? : α → Option β} {put : β → α} {q : β → Bool}
    {z : β} (hput : ∀ a b, view? a = some b ↔ a = put b)
    (hq : ∀ a, (view? a).any q = true ↔ p a) :
    (xs.filterMap view?).find? q = some z ↔ IsFirst p xs (put z) := by
  rw [List.find?_filterMap, ← find?_eq_some_iff_isFirst hq, Option.bind_eq_some_iff]
  simp [hput]

end IsFirst

/-! ## Declarations -/

/-- What a document declares: an operation with a name, or a fragment. -/
inductive NamedDefinition where
  | operation (o : Operation)
  | fragment (f : Fragment)

namespace NamedDefinition

/-- The words of the declaration. -/
def source : NamedDefinition → String
  | .operation o => o.source
  | .fragment f => f.source

def location : NamedDefinition → Location
  | .operation o => o.location
  | .fragment f => f.location

/-- Whether two declarations are of one sort and have one name. -/
def SameName : NamedDefinition → NamedDefinition → Prop
  | .operation o, .operation o' => o.name = o'.name
  | .fragment f, .fragment f' => f.name = f'.name
  | _, _ => False

instance : DecidableRel SameName
  | .operation o, .operation o' => inferInstanceAs (Decidable (o.name = o'.name))
  | .fragment f, .fragment f' => inferInstanceAs (Decidable (f.name = f'.name))
  | .operation _, .fragment _ => isFalse id
  | .fragment _, .operation _ => isFalse id

/-- The error of a declaration of a name that was first declared at a location. -/
def duplicate (first : Location) : NamedDefinition → Error
  | .operation o => .duplicateOperation o.name first o.location
  | .fragment f => .duplicateFragment f.name first f.location

def operation? : NamedDefinition → Option Operation
  | .operation o => some o
  | .fragment _ => none

def fragment? : NamedDefinition → Option Fragment
  | .operation _ => none
  | .fragment f => some f

/-- A declaration says something else than the first one of its name. -/
def Differs (xs : List NamedDefinition) (x : NamedDefinition) : Prop :=
  ∃ first, IsFirst (SameName x) xs first ∧ first.source ≠ x.source

instance (xs : List NamedDefinition) : DecidablePred (Differs xs) := fun x =>
  decidable_of_iff (∃ first ∈ xs.find? fun y => decide (SameName x y), first.source ≠ x.source) (by
    simp only [Option.mem_def, find?_eq_some_iff_isFirst fun _ => decide_eq_true_iff, Differs])

theorem Differs.append_right {xs ys : List NamedDefinition} {x : NamedDefinition}
    (h : Differs xs x) : Differs (xs ++ ys) x := by
  obtain ⟨first, hfirst, hsource⟩ := h
  exact ⟨first, hfirst.append_right, hsource⟩

end NamedDefinition

/-- What a definition of a file declares. -/
def Graphql.Definition.declaration? (file : Path) : Definition → Option NamedDefinition
  | .shorthand .. => none
  | .operation definition => (Operation.ofDefinition? file definition).map .operation
  | .fragment definition => some (.fragment { file, definition })

/-- The declarations of a document in their order. -/
def Document.declarations (d : Document) : List NamedDefinition :=
  d.definitions.filterMap (Definition.declaration? d.location)

theorem Document.filterMap_operation? (ds : List Document) :
    (ds.flatMap declarations).filterMap NamedDefinition.operation? = ds.flatMap operations := by
  rw [List.filterMap_flatMap]
  refine List.flatMap_congr fun d _ => ?_
  rw [declarations, List.filterMap_filterMap, operations]
  refine List.filterMap_congr fun x _ => ?_
  cases x with
  | shorthand => rfl
  | fragment => rfl
  | operation definition =>
      show ((Operation.ofDefinition? d.location definition).map .operation).bind
        NamedDefinition.operation? = Operation.ofDefinition? d.location definition
      cases Operation.ofDefinition? d.location definition <;> rfl

theorem Document.filterMap_fragment? (ds : List Document) :
    (ds.flatMap declarations).filterMap NamedDefinition.fragment? = ds.flatMap fragments := by
  rw [List.filterMap_flatMap]
  refine List.flatMap_congr fun d _ => ?_
  rw [declarations, List.filterMap_filterMap, fragments]
  refine List.filterMap_congr fun x _ => ?_
  cases x with
  | shorthand => rfl
  | fragment => rfl
  | operation definition =>
      show ((Operation.ofDefinition? d.location definition).map .operation).bind
        NamedDefinition.fragment? = none
      cases Operation.ofDefinition? d.location definition <;> rfl

/-! ## Gathering -/

section Keep

variable {α : Type} [Declared α] {xs : List α} {x first : α}

theorem firsts_snoc (xs : List α) (x : α) : firsts (xs ++ [x]) = addNew (firsts xs) x := by
  rw [firsts, List.foldl_append]
  rfl

theorem keep_firsts
    (h : ∀ first, xs.find? (Declared.name · == Declared.name x) = some first →
      Declared.source first = Declared.source x) :
    keep (firsts xs) x = .ok (firsts (xs ++ [x])) := by
  rw [keep_eq_ok, find?_firsts, firsts_snoc]
  exact ⟨h, rfl⟩

theorem keep_firsts_eq_error
    (h : xs.find? (Declared.name · == Declared.name x) = some first)
    (hsource : Declared.source first ≠ Declared.source x) :
    keep (firsts xs) x = .error (Declared.clash first x) := by
  rw [keep, find?_firsts, h]
  exact if_neg hsource

end Keep

namespace NamedDefinition

variable {xs : List NamedDefinition} {first : NamedDefinition}

theorem operation?_eq_some (a : NamedDefinition) (o : Operation) :
    a.operation? = some o ↔ a = .operation o := by
  cases a <;> simp [operation?]

theorem fragment?_eq_some (a : NamedDefinition) (f : Fragment) :
    a.fragment? = some f ↔ a = .fragment f := by
  cases a <;> simp [fragment?]

theorem find?_operation {o o' : Operation} :
    (xs.filterMap operation?).find? (Declared.name · == Declared.name o) = some o' ↔
      IsFirst (SameName (.operation o)) xs (.operation o') := by
  refine find?_filterMap_eq_some_iff operation?_eq_some ?_
  rintro (o'' | f)
  · simpa [operation?, SameName, Declared.name] using eq_comm
  · simp [operation?, SameName]

theorem find?_fragment {f f' : Fragment} :
    (xs.filterMap fragment?).find? (Declared.name · == Declared.name f) = some f' ↔
      IsFirst (SameName (.fragment f)) xs (.fragment f') := by
  refine find?_filterMap_eq_some_iff fragment?_eq_some ?_
  rintro (o | f'')
  · simp [fragment?, SameName]
  · simpa [fragment?, SameName, Declared.name] using eq_comm

end NamedDefinition

namespace Gathering

open NamedDefinition (SameName Differs)

variable {ds : List Document} {xs front : List NamedDefinition} {x first : NamedDefinition}

/-- Adds what is declared. -/
def declare (g : Gathering) : NamedDefinition → Except Error Gathering
  | .operation o => g.addOperation o
  | .fragment f => g.addFragment f

theorem add_eq_declare (g : Gathering) (file : Path) (x : Definition) :
    g.add file x = match x.declaration? file with
      | some y => g.declare y
      | none => .ok g := by
  cases x with
  | shorthand => rfl
  | fragment => rfl
  | operation definition =>
      rw [add, Definition.declaration?]
      cases Operation.ofDefinition? file definition <;> rfl

/-- Documents are gathered by adding what they declare. -/
theorem ofDocuments_eq_declare (ds : List Document) :
    ofDocuments ds = (ds.flatMap Document.declarations).foldlM declare empty := by
  have hdocument : ∀ (g : Gathering) (d : Document),
      g.addDocument d = d.declarations.foldlM declare g := by
    intro g d
    rw [addDocument, Document.declarations, List.foldlM_filterMap]
    refine congrArg (List.foldlM · g d.definitions) (funext fun g => funext fun x => ?_)
    rw [add_eq_declare]
    cases x.declaration? d.location <;> rfl
  unfold ofDocuments
  generalize empty = g
  induction ds generalizing g with
  | nil => rfl
  | cons d ds ih =>
      rw [List.foldlM_cons, List.flatMap_cons, List.foldlM_append, hdocument]
      exact bind_congr ih

/-- What is gathered of declarations that are in order. -/
def ofDeclarations (xs : List NamedDefinition) : Gathering :=
  ⟨firsts (xs.filterMap NamedDefinition.operation?),
    firsts (xs.filterMap NamedDefinition.fragment?)⟩

theorem ofDeclarations_operation (xs : List NamedDefinition) (o : Operation) :
    ofDeclarations (xs ++ [.operation o]) =
      ⟨firsts (xs.filterMap NamedDefinition.operation? ++ [o]),
        firsts (xs.filterMap NamedDefinition.fragment?)⟩ := by
  rw [ofDeclarations, List.filterMap_append, List.filterMap_append,
    List.filterMap_cons_none (f := NamedDefinition.fragment?) rfl, List.filterMap_nil,
    List.append_nil]
  rfl

theorem ofDeclarations_fragment (xs : List NamedDefinition) (f : Fragment) :
    ofDeclarations (xs ++ [.fragment f]) =
      ⟨firsts (xs.filterMap NamedDefinition.operation?),
        firsts (xs.filterMap NamedDefinition.fragment? ++ [f])⟩ := by
  rw [ofDeclarations, List.filterMap_append, List.filterMap_append,
    List.filterMap_cons_none (f := NamedDefinition.operation?) rfl, List.filterMap_nil,
    List.append_nil]
  rfl

/-- A declaration is added if it says what the first of its name says. -/
theorem declare_eq_ok (h : ∀ first, IsFirst (SameName x) xs first → first.source = x.source) :
    (ofDeclarations xs).declare x = .ok (ofDeclarations (xs ++ [x])) := by
  cases x with
  | operation o =>
      have hkeep := keep_firsts fun o' ho' => h _ (NamedDefinition.find?_operation.mp ho')
      rw [declare, addOperation, ofDeclarations, hkeep, ofDeclarations_operation]
      rfl
  | fragment f =>
      have hkeep := keep_firsts fun f' hf' => h _ (NamedDefinition.find?_fragment.mp hf')
      rw [declare, addFragment, ofDeclarations, hkeep, ofDeclarations_fragment]
      rfl

/-- Otherwise it is reported with the place of the first. -/
theorem declare_eq_error (h : IsFirst (SameName x) xs first) (hsource : first.source ≠ x.source) :
    (ofDeclarations xs).declare x = .error (x.duplicate first.location) := by
  cases x with
  | operation o =>
      cases first with
      | fragment f => exact h.1.elim
      | operation o' =>
          rw [declare, addOperation, ofDeclarations,
            keep_firsts_eq_error (NamedDefinition.find?_operation.mpr h) hsource]
          rfl
  | fragment f =>
      cases first with
      | operation o => exact h.1.elim
      | fragment f' =>
          rw [declare, addFragment, ofDeclarations,
            keep_firsts_eq_error (NamedDefinition.find?_fragment.mpr h) hsource]
          rfl

/-- Declarations none of which differs from the first of its name are all gathered. -/
theorem foldlM_declare (h : ∀ x ∈ xs, ¬ Differs xs x) :
    xs.foldlM declare empty = .ok (ofDeclarations xs) := by
  induction xs using List.reverseRecOn with
  | nil => rfl
  | append_singleton xs x ih =>
      have hxs := ih fun y hy hdiffers =>
        h y (List.mem_append_left _ hy) hdiffers.append_right
      rw [List.foldlM_append, hxs]
      show [x].foldlM declare (ofDeclarations xs) = _
      rw [Outcome.foldlM_singleton]
      refine declare_eq_ok fun first hfirst => ?_
      by_contra hsource
      exact h x (by simp) ⟨first, hfirst.append_right, hsource⟩

/-- The earliest declaration that differs from the first of its name ends the gathering. -/
theorem foldlM_declare_eq_error (hx : IsFirst (Differs xs) xs x)
    (hfirst : IsFirst (SameName x) xs first) (hsource : first.source ≠ x.source) :
    xs.foldlM declare empty = .error (x.duplicate first.location) := by
  obtain ⟨_, front, back, rfl, hfront⟩ := hx
  have hgathered : front.foldlM declare empty = .ok (ofDeclarations front) :=
    foldlM_declare fun y hy hdiffers => hfront y hy hdiffers.append_right
  have hself : SameName x x := by cases x <;> exact rfl
  rcases hfirst.of_append hself with hfirst | rfl
  · rw [List.foldlM_append, hgathered]
    show (x :: back).foldlM declare (ofDeclarations front) = _
    rw [List.foldlM_cons, declare_eq_error hfirst hsource]
    rfl
  · exact absurd rfl hsource

end Gathering

/-! ## Unknown spreads -/

/-- Looking for a thing does not see that another stands twice. -/
theorem Distinct.find?_ofList {α : Type} [DecidableEq α] (xs : List α) (q : α → Bool) :
    (ofList xs).find? q = xs.find? q := by
  have hpush : ∀ (ys : List α) (x : α), (push ys x).find? q = (ys ++ [x]).find? q := by
    intro ys x
    unfold push
    split
    · rename_i hx
      rw [List.find?_append]
      cases hfind : ys.find? q with
      | some y => rfl
      | none => simp [List.find?_eq_none.mp hfind x hx]
    · rfl
  have hextend : ∀ ys : List α, (extend ys xs).find? q = (ys ++ xs).find? q := by
    induction xs with
    | nil => exact fun ys => by rw [List.append_nil]; rfl
    | cons x xs ih =>
        intro ys
        show (extend (push ys x) xs).find? q = _
        rw [ih, List.find?_append, hpush, ← List.find?_append, List.append_assoc,
          List.singleton_append]
  exact hextend []

/-- The names that an operation spreads at any depth, as often as it does. -/
def Operation.spreadNames (o : Operation) : List String :=
  (Graphql.walkAll o.selections).filterMap Selection.spreadName?

theorem Operation.mem_spreads {o : Operation} {n : String} : n ∈ o.spreads ↔ n ∈ o.spreadNames :=
  Distinct.mem_ofList

section Unknown

variable {g : Gathering} {known : String → Bool} {Unknown : String → Prop} {o : Operation}
  {n : String}

/-- The first operation that spreads an unknown name is reported, with its first such spread. -/
theorem Gathering.unknownSpread?_eq_some (hknown : ∀ n, known n = false ↔ Unknown n)
    (ho : IsFirst (fun o => ∃ n ∈ o.spreadNames, Unknown n) g.operations o)
    (hn : IsFirst Unknown o.spreadNames n) :
    g.unknownSpread? known = some (.unknownFragment n o.location) := by
  obtain ⟨_, front, back, hsplit, hfront⟩ := ho
  refine List.findSome?_eq_some_iff.mpr ⟨front, o, back, hsplit, ?_, ?_⟩
  · have hfind : (o.spreads.find? fun n => !known n) = some n := by
      rw [Operation.spreads, Graphql.spreads, Distinct.find?_ofList]
      exact (find?_eq_some_iff_isFirst fun n => by rw [Bool.not_eq_true', hknown]).mpr hn
    rw [hfind]
    rfl
  · intro o' ho'
    rw [Option.map_eq_none_iff, List.find?_eq_none]
    intro m hm hunknown
    rw [Bool.not_eq_true', hknown] at hunknown
    exact hfront o' ho' ⟨m, Operation.mem_spreads.mp hm, hunknown⟩

end Unknown

/-! ## Collecting -/

namespace Collection

open NamedDefinition (SameName Differs)

/-- No declared fragment has the name, and no fragment that is offered. -/
def Unknown (fragments : List Fragment) (offered : List ImportedFragment) (n : String) : Prop :=
  n ∉ fragments.map Fragment.name ∧ n ∉ offered.map ImportedFragment.name

instance (fragments : List Fragment) (offered : List ImportedFragment) :
    DecidablePred (Unknown fragments offered) := fun _ => inferInstanceAs (Decidable (_ ∧ _))

/-- The earliest declaration that differs from the first of its name is reported. -/
theorem ofDocuments_eq_error {ds : List Document} {x first : NamedDefinition}
    (hx : IsFirst (Differs (ds.flatMap Document.declarations))
      (ds.flatMap Document.declarations) x)
    (hfirst : IsFirst (SameName x) (ds.flatMap Document.declarations) first)
    (hsource : first.source ≠ x.source) (offered : List ImportedFragment) :
    ofDocuments ds offered = .error (x.duplicate first.location) := by
  rw [ofDocuments, Gathering.ofDocuments_eq_declare,
    Gathering.foldlM_declare_eq_error hx hfirst hsource]
  rfl

/-- If there is none, the first declarations are kept; then unknown spreads are reported, and then
what ordering reports. -/
theorem ofDocuments_of_alike {ds : List Document}
    (h : ∀ x ∈ ds.flatMap Document.declarations, ¬ Differs (ds.flatMap Document.declarations) x)
    (offered : List ImportedFragment) :
    let operations := firsts (ds.flatMap Document.operations)
    let fragments := firsts (ds.flatMap Document.fragments)
    let imported := offered.filter fun e => e.name ∉ fragments.map Fragment.name
    ∃ known : String → Bool, (∀ n, known n = false ↔ Unknown fragments offered n) ∧
      ofDocuments ds offered =
        match (Gathering.mk operations fragments).unknownSpread? known with
        | some e => .error e
        | none => (Fragment.order fragments (imported.map ImportedFragment.name)).map
            fun ordered => ⟨operations, ordered, imported⟩ := by
  intro operations fragments imported
  have hgathering : Gathering.ofDocuments ds = .ok ⟨operations, fragments⟩ := by
    rw [Gathering.ofDocuments_eq_declare, Gathering.foldlM_declare h, Gathering.ofDeclarations,
      Document.filterMap_operation?, Document.filterMap_fragment?]
  -- own fragments take precedence over those that are offered
  have hown : ∀ n,
      (fragments.any fun f => f.name == n) = true ↔ n ∈ fragments.map Fragment.name := by
    simp
  have himported : (offered.filter fun e => !(fragments.any fun f => f.name == e.name)) =
      imported := by
    refine List.filter_congr fun e _ => ?_
    rw [Bool.eq_iff_iff, Bool.not_eq_true', ← Bool.not_eq_true, hown, decide_eq_true_iff]
  refine ⟨fun n => (fragments.any fun f => f.name == n) ||
    (imported.map ImportedFragment.name).contains n, fun n => ?_, ?_⟩
  · rw [Bool.or_eq_false_iff, ← Bool.not_eq_true, hown, ← Bool.not_eq_true, List.contains_iff_mem,
      Unknown]
    refine and_congr_right fun hn => not_congr ?_
    simp only [imported, List.mem_map, List.mem_filter, decide_eq_true_iff]
    constructor
    · rintro ⟨e, ⟨he, _⟩, rfl⟩
      exact ⟨e, he, rfl⟩
    · rintro ⟨e, he, rfl⟩
      exact ⟨e, ⟨he, fun hm => hn (List.mem_map.mpr hm)⟩, rfl⟩
  · rw [ofDocuments, hgathering]
    dsimp only [bind, Except.bind]
    rw [himported]
    cases (Gathering.mk operations fragments).unknownSpread? fun n =>
        (fragments.any fun f => f.name == n) || (imported.map ImportedFragment.name).contains n with
    | some e => rfl
    | none => cases Fragment.order fragments (imported.map ImportedFragment.name) <;> rfl

/-- Which error is reported, whatever the documents and the fragments offered to them are. If some
declarations differ from the first of their name, the earliest of them is reported with the place of
that one. If none does and some operation that is kept spreads an unknown name, the first such
operation is reported with its first such spread. Otherwise it is up to the order of the fragments
that are kept, for which the names are known that are offered and not declared. -/
theorem ofDocuments_first_error (ds : List Document) (offered : List ImportedFragment) :
    let xs := ds.flatMap Document.declarations
    let operations := firsts (ds.flatMap Document.operations)
    let fragments := firsts (ds.flatMap Document.fragments)
    let imported := offered.filter fun e => e.name ∉ fragments.map Fragment.name
    ((∃ x ∈ xs, Differs xs x) → ∃ x first, IsFirst (Differs xs) xs x ∧
      IsFirst (SameName x) xs first ∧
      ofDocuments ds offered = .error (x.duplicate first.location)) ∧
    ((∀ x ∈ xs, ¬ Differs xs x) →
      ((∃ o ∈ operations, ∃ n ∈ o.spreadNames, Unknown fragments offered n) →
        ∃ o n, IsFirst (fun o => ∃ n ∈ o.spreadNames, Unknown fragments offered n) operations o ∧
          IsFirst (Unknown fragments offered) o.spreadNames n ∧
          ofDocuments ds offered = .error (.unknownFragment n o.location)) ∧
      ((∀ o ∈ operations, ∀ n ∈ o.spreadNames, ¬ Unknown fragments offered n) →
        ofDocuments ds offered =
          (Fragment.order fragments (imported.map ImportedFragment.name)).map
            fun ordered => ⟨operations, ordered, imported⟩)) := by
  intro xs operations fragments imported
  refine ⟨fun hdiffers => ?_, fun halike => ?_⟩
  · obtain ⟨x, hx⟩ := exists_isFirst hdiffers
    obtain ⟨first, hfirst, hsource⟩ := hx.1
    exact ⟨x, first, hx, hfirst, ofDocuments_eq_error hx hfirst hsource offered⟩
  · obtain ⟨known, hknown, heq⟩ := ofDocuments_of_alike halike offered
    refine ⟨fun hunknown => ?_, fun hspreads => ?_⟩
    · obtain ⟨o, ho⟩ := exists_isFirst hunknown
      obtain ⟨n, hn⟩ := exists_isFirst ho.1
      refine ⟨o, n, ho, hn, ?_⟩
      rw [heq, Gathering.unknownSpread?_eq_some hknown ho hn]
    · have hnone : (Gathering.mk operations fragments).unknownSpread? known = none := by
        refine Gathering.unknownSpread?_eq_none.mpr fun o ho n hn => ?_
        by_contra hn'
        exact hspreads o ho n (Operation.mem_spreads.mp hn)
          ((hknown n).mp (Bool.eq_false_of_not_eq_true hn'))
      rw [heq, hnone]

/-- A document that declares the author again, with a vote. -/
def voted : Document :=
  ⟨⟨"voted.graphql"⟩, [.fragment (.bare "Vote" []), .fragment (.bare "Author" ["Vote"]),
    .operation (.bare "Feed" [])]⟩

/-- Of two declarations behind the feed that differ from it the first is reported. Alone the feed
lacks the vote, and with what is offered to it nothing. -/
theorem ofDocuments_first_error_feed :
    (∃ x first, IsFirst (Differs ((feed ++ [voted]).flatMap Document.declarations))
        ((feed ++ [voted]).flatMap Document.declarations) x ∧
      IsFirst (SameName x) ((feed ++ [voted]).flatMap Document.declarations) first ∧
      ofDocuments (feed ++ [voted]) [] = .error (x.duplicate first.location)) ∧
    ofDocuments (feed ++ [voted]) [] = .error (.duplicateFragment "Author"
      ⟨⟨"author.graphql"⟩, .start⟩ ⟨⟨"voted.graphql"⟩, .start⟩) ∧
    (∃ o n, IsFirst (fun o => ∃ n ∈ o.spreadNames,
        Unknown (firsts (feed.flatMap Document.fragments)) [] n)
        (firsts (feed.flatMap Document.operations)) o ∧
      IsFirst (Unknown (firsts (feed.flatMap Document.fragments)) []) o.spreadNames n ∧
      ofDocuments feed [] = .error (.unknownFragment n o.location)) ∧
    ofDocuments feed [] = .error (.unknownFragment "Vote" ⟨⟨"feed.graphql"⟩, .start⟩) ∧
    ofDocuments feed offeredToFeed = (Fragment.order (firsts (feed.flatMap Document.fragments))
      ["Vote"]).map fun ordered =>
        ⟨collectedFeed.operations, ordered, collectedFeed.imported⟩ := by
  have hvoted := (ofDocuments_first_error (feed ++ [voted]) []).1 (of_decide_eq_true (by cbv))
  have hfeed := (ofDocuments_first_error feed []).2 (of_decide_eq_true (by cbv))
  have hoffered := (ofDocuments_first_error feed offeredToFeed).2 (of_decide_eq_true (by cbv))
  refine ⟨hvoted, by cbv, hfeed.1 (by decide +kernel), by cbv, ?_⟩
  exact hoffered.2 (by decide +kernel)

end Collection

end Composables
