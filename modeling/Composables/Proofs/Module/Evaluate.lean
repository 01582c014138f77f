import Composables.Proofs.Module.Closed

/-
  Declaring the constants of a module one after another. A constant may refer only to constants in
  front of it, and a name is declared once. Where each finds what it refers to, all can be declared;
  what a constant then holds is its own definitions and what the constants hold that it refers to
  (`exists_load`).
-/

namespace Composables

open Graphql (Definition)

/-! ## What constants hold -/

inductive Held where
  /-- A text, and the definitions whose prints it was put together from. -/
  | text (s : String) (definitions : List Definition)
  | tree (definitions : List Definition)

namespace Held

def definitions : Held → List Definition
  | .text _ definitions => definitions
  | .tree definitions => definitions

def isTree : Held → Bool
  | .text .. => false
  | .tree _ => true

def text? : Held → Option String
  | .text s _ => some s
  | .tree _ => none

end Held

/-- Constants with what they hold, in the order of their declaration. -/
abbrev Scope := List (String × Held)

namespace Scope

/-- Takes what a constant holds. The error is the name of a constant that is not there, or that is a
text where a tree is needed or the other way round. -/
def get (scope : Scope) (tree : Bool) (name : String) : Except String Held :=
  match scope.lookup name with
  | some held => if held.isTree = tree then .ok held else .error name
  | none => .error name

/-- The definitions that a constant holds. -/
def definitions (scope : Scope) (name : String) : List Definition :=
  ((scope.lookup name).map Held.definitions).getD []

end Scope

/-- What a value comes to. A substitution in a template stands for the text of another constant, and
what is spliced into a tree for the definitions of another one. -/
def DocumentValue.evaluate (scope : Scope) : DocumentValue → Except String Held
  | .template _ definition references =>
    (references.mapM (scope.get false)).map fun helds =>
      .text ("\n    " ++ definition.print ++ "\n    " ++
          "\n".intercalate (helds.filterMap Held.text?))
        (definition :: helds.flatMap Held.definitions)
  | .complete definitions => .ok (.tree definitions)
  | .spliced definition references =>
    (references.mapM (scope.get true)).map fun helds =>
      .tree (definition :: helds.flatMap Held.definitions)

/-- Declares a constant, whose name has to be new. -/
def declare (scope : Scope) (k : Constant) : Except String Scope :=
  if k.name ∈ scope.map Prod.fst then .error k.name
  else (k.value.evaluate scope).map fun held => scope ++ [(k.name, held)]

/-- Declares constants one after another. -/
def load (ks : List Constant) : Except String Scope := ks.foldlM declare []

/-- The definitions that stand in a value itself. -/
def DocumentValue.own : DocumentValue → List Definition
  | .template _ definition _ => [definition]
  | .complete definitions => definitions
  | .spliced definition _ => [definition]

/-! ## Prints in a text -/

/-- A text consists of the prints of definitions, in their order, with nothing but spaces and line
feeds around them. -/
inductive Prints : List Char → List Definition → Prop
  | nil : Prints [] []
  | blank {c : Char} {cs : List Char} {ds : List Definition} (h : c = ' ' ∨ c = '\n')
      (rest : Prints cs ds) : Prints (c :: cs) ds
  | print {cs : List Char} {ds : List Definition} (d : Definition) (rest : Prints cs ds) :
      Prints (d.print.toList ++ cs) (d :: ds)

namespace Prints

variable {cs cs' : List Char} {ds ds' : List Definition}

theorem append (h : Prints cs ds) (h' : Prints cs' ds') : Prints (cs ++ cs') (ds ++ ds') := by
  induction h with
  | nil => exact h'
  | blank hblank _ ih => exact .blank hblank ih
  | print d _ ih =>
      rw [List.append_assoc]
      exact .print d ih

theorem blanks {sep : List Char} (hsep : ∀ c ∈ sep, c = ' ' ∨ c = '\n') (h : Prints cs ds) :
    Prints (sep ++ cs) ds := by
  induction sep with
  | nil => exact h
  | cons c sep ih =>
      have hrest : ∀ c' ∈ sep, c' = ' ' ∨ c' = '\n' := fun c' hc' =>
        hsep c' (List.mem_cons_of_mem c hc')
      exact .blank (hsep c List.mem_cons_self) (ih hrest)

end Prints

/-- A text holds the prints of its definitions. -/
def Held.Printed : Held → Prop
  | .text s definitions => Prints s.toList definitions
  | .tree _ => True

/-- Texts on lines of their own hold together the prints of all. -/
theorem Prints.intercalate {helds : List Held}
    (h : ∀ held ∈ helds, held.isTree = false ∧ held.Printed) :
    Prints ("\n".intercalate (helds.filterMap Held.text?)).toList
      (helds.flatMap Held.definitions) := by
  rw [String.toList_intercalate]
  induction helds with
  | nil => exact .nil
  | cons held helds ih =>
      obtain ⟨hkind, hprints⟩ := h held List.mem_cons_self
      have hrest := ih fun held' hheld' => h held' (List.mem_cons_of_mem held hheld')
      cases held with
      | tree definitions => cases hkind
      | text s definitions =>
          cases helds with
          | nil =>
              simpa [List.intercalate, Held.text?, Held.definitions, Held.Printed] using hprints
          | cons next helds =>
              obtain ⟨hnext, _⟩ := h next (by simp)
              cases next with
              | tree definitions => cases hnext
              | text s' definitions' =>
                  have hline : ∀ c ∈ ['\n'], c = ' ' ∨ c = '\n' := by simp
                  exact hprints.append (blanks hline hrest)

/-! ## Looking up constants -/

namespace Scope

variable {scope : Scope} {name : String} {held : Held}

theorem mem_of_lookup (h : scope.lookup name = some held) : (name, held) ∈ scope := by
  induction scope with
  | nil => cases h
  | cons p scope ih =>
      rw [List.lookup_cons] at h
      split at h
      · rename_i hname
        obtain rfl := Option.some.inj h
        rw [beq_iff_eq.mp hname]
        exact List.mem_cons_self
      · exact List.mem_cons_of_mem p (ih h)

/-- A constant that is declared holds something. -/
theorem exists_lookup (h : name ∈ scope.map Prod.fst) :
    ∃ held, scope.lookup name = some held ∧ held.definitions = scope.definitions name := by
  have hsome : (scope.lookup name).isSome := by
    rw [Option.isSome_iff_ne_none, ne_eq, List.lookup_eq_none_iff]
    obtain ⟨p, hp, rfl⟩ := List.mem_map.mp h
    intro hnone
    simpa using hnone p hp
  obtain ⟨held, hheld⟩ := Option.isSome_iff_exists.mp hsome
  refine ⟨held, hheld, ?_⟩
  rw [definitions, hheld]
  rfl

theorem definitions_append_of_mem (h : name ∈ scope.map Prod.fst) (more : Scope) :
    (scope ++ more).definitions name = scope.definitions name := by
  obtain ⟨held, hheld, _⟩ := exists_lookup h
  unfold definitions
  rw [List.lookup_append, hheld, Option.some_or]

theorem lookup_snoc (h : name ∉ scope.map Prod.fst) (held : Held) :
    (scope ++ [(name, held)]).lookup name = some held := by
  have hnone : scope.lookup name = none := by
    rw [List.lookup_eq_none_iff]
    intro p hp
    have : p.1 ≠ name := fun heq => h (heq ▸ List.mem_map_of_mem hp)
    simpa using this.symm
  rw [List.lookup_append, hnone, Option.none_or, List.lookup_cons_self]

theorem definitions_snoc (h : name ∉ scope.map Prod.fst) (held : Held) :
    definitions (scope ++ [(name, held)]) name = held.definitions := by
  rw [definitions, lookup_snoc h held]
  rfl

/-- What is taken from a scope stays when more is declared. -/
theorem get_append {tree : Bool} (h : scope.get tree name = .ok held) (more : Scope) :
    (scope ++ more).get tree name = .ok held := by
  unfold get at h ⊢
  rw [List.lookup_append]
  cases hlookup : scope.lookup name with
  | none =>
      rw [hlookup] at h
      cases h
  | some held' =>
      rw [hlookup] at h
      exact h

end Scope

/-! ## Declaring constants -/

section Declare

variable {scope scope' : Scope} {k : Constant} {ks : List Constant} {value : DocumentValue}
  {held : Held}

theorem DocumentValue.evaluate_append (h : value.evaluate scope = .ok held) (more : Scope) :
    value.evaluate (scope ++ more) = .ok held := by
  have hmono : ∀ {tree : Bool} {references : List String} {helds : List Held},
      references.mapM (scope.get tree) = .ok helds →
        references.mapM (Scope.get (scope ++ more) tree) = .ok helds :=
    Outcome.mapM_mono fun _ _ _ hget => Scope.get_append hget more
  cases value with
  | complete => exact h
  | template | spliced =>
      obtain ⟨helds, hhelds, hresult⟩ := Outcome.map_eq_ok.mp h
      exact Outcome.map_eq_ok.mpr ⟨helds, hmono hhelds, hresult⟩

theorem declare_eq_ok : declare scope k = .ok scope' ↔ k.name ∉ scope.map Prod.fst ∧
    ∃ held, k.value.evaluate scope = .ok held ∧ scope' = scope ++ [(k.name, held)] := by
  unfold declare
  by_cases hname : k.name ∈ scope.map Prod.fst
  · rw [if_pos hname]
    exact iff_of_false nofun fun h => h.1 hname
  · rw [if_neg hname, Outcome.map_eq_ok, and_iff_right hname]
    simp only [eq_comm]

/-- One constant after another is declared. -/
theorem load_snoc : load (ks ++ [k]) = .ok scope' ↔
    ∃ scope, load ks = .ok scope ∧ declare scope k = .ok scope' := by
  unfold load
  rw [List.foldlM_append, Outcome.bind_eq_ok]
  simp only [Outcome.foldlM_singleton]

/-- Once all are declared, a constant holds what its value comes to then: what it refers to stood in
front of it and has stayed. -/
theorem lookup_of_load (h : load ks = .ok scope) :
    ∀ k ∈ ks, ∃ held, scope.lookup k.name = some held ∧ k.value.evaluate scope = .ok held := by
  induction ks using List.reverseRecOn generalizing scope with
  | nil => exact nofun
  | append_singleton ks k ih =>
      obtain ⟨front, hfront, hdeclare⟩ := load_snoc.mp h
      obtain ⟨hname, held, hheld, rfl⟩ := declare_eq_ok.mp hdeclare
      intro k' hk'
      rcases List.mem_append.mp hk' with hk' | hk'
      · obtain ⟨held', hlookup, hvalue⟩ := ih hfront k' hk'
        refine ⟨held', ?_, DocumentValue.evaluate_append hvalue _⟩
        rw [List.lookup_append, hlookup, Option.some_or]
      · obtain rfl := List.mem_singleton.mp hk'
        exact ⟨held, Scope.lookup_snoc hname held, DocumentValue.evaluate_append hheld _⟩

end Declare

/-! ## Declaring constants of one kind -/

/-- What is known of the constants of one kind, texts or trees, once they are declared. -/
structure Loaded (tree : Bool) (ks : List Constant) (scope : Scope) : Prop where
  names : scope.map Prod.fst = ks.map Constant.name
  kind : ∀ p ∈ scope, p.2.isTree = tree
  printed : ∀ p ∈ scope, p.2.Printed
  references : ∀ k ∈ ks, ∀ r ∈ k.value.references, r ∈ ks.map Constant.name
  definitions : ∀ k ∈ ks,
    scope.definitions k.name = k.value.own ++ k.value.references.flatMap scope.definitions

namespace Loaded

variable {tree : Bool} {ks : List Constant} {k : Constant} {scope : Scope} {value : DocumentValue}
  {references : List String} {held : Held}

theorem nil (tree : Bool) : Loaded tree [] [] := ⟨rfl, by simp, by simp, by simp, by simp⟩

/-- What declared constants hold is of the kind that is asked for. -/
theorem get_ok (h : Loaded tree ks scope) (hrefs : ∀ r ∈ references, r ∈ ks.map Constant.name) :
    ∃ helds, references.mapM (scope.get tree) = .ok helds ∧
      (∀ held ∈ helds, held.isTree = tree ∧ held.Printed) ∧
      helds.flatMap Held.definitions = references.flatMap scope.definitions := by
  obtain ⟨helds, hhelds, hall⟩ := Outcome.mapM_ok (f := scope.get tree)
    (p := fun r held =>
      (held.isTree = tree ∧ held.Printed) ∧ held.definitions = scope.definitions r)
    references (by
      intro r hr
      obtain ⟨held, hheld, hdefinitions⟩ := Scope.exists_lookup (h.names ▸ hrefs r hr)
      have hmem := Scope.mem_of_lookup hheld
      refine ⟨held, ?_, ⟨h.kind _ hmem, h.printed _ hmem⟩, hdefinitions⟩
      unfold Scope.get
      rw [hheld]
      exact if_pos (h.kind _ hmem))
  refine ⟨helds, hhelds, ?_⟩
  clear hhelds hrefs
  induction hall with
  | nil => simp
  | cons hr _ ih =>
      obtain ⟨hforall, hdefinitions⟩ := ih
      rw [List.flatMap_cons, List.flatMap_cons, hr.2, hdefinitions]
      exact ⟨List.forall_mem_cons.mpr ⟨hr.1, hforall⟩, rfl⟩

/-- A value of the same kind comes to its own definitions and to those of what it refers to. -/
theorem evaluate_ok (h : Loaded tree ks scope) (hkind : value.isTree = tree)
    (hrefs : ∀ r ∈ value.references, r ∈ ks.map Constant.name) :
    ∃ held, value.evaluate scope = .ok held ∧ held.isTree = tree ∧ held.Printed ∧
      held.definitions = value.own ++ value.references.flatMap scope.definitions := by
  subst hkind
  obtain ⟨helds, hhelds, hall, hdefinitions⟩ := h.get_ok hrefs
  cases value with
  | complete definitions =>
      exact ⟨.tree definitions, rfl, rfl, trivial, (List.append_nil definitions).symm⟩
  | template tag definition references =>
      refine ⟨_, Outcome.map_eq_ok.mpr ⟨helds, hhelds, rfl⟩, rfl, ?_, ?_⟩
      · show Prints ("\n    " ++ definition.print ++ "\n    " ++
            "\n".intercalate (helds.filterMap Held.text?)).toList
          (definition :: helds.flatMap Held.definitions)
        rw [String.toList_append, String.toList_append, String.toList_append, List.append_assoc,
          List.append_assoc]
        have hlayout : ∀ c ∈ "\n    ".toList, c = ' ' ∨ c = '\n' := by simp
        exact .blanks hlayout (.print definition (.blanks hlayout (.intercalate hall)))
      · exact congrArg (definition :: ·) hdefinitions
  | spliced definition references =>
      refine ⟨_, Outcome.map_eq_ok.mpr ⟨helds, hhelds, rfl⟩, rfl, trivial, ?_⟩
      exact congrArg (definition :: ·) hdefinitions

/-- One more constant of the kind can be declared if its name is new and what it refers to is
there. -/
theorem snoc (h : Loaded tree ks scope) (hkind : k.value.isTree = tree)
    (hname : k.name ∉ ks.map Constant.name)
    (hrefs : ∀ r ∈ k.value.references, r ∈ ks.map Constant.name) :
    ∃ scope', declare scope k = .ok scope' ∧ Loaded tree (ks ++ [k]) scope' := by
  obtain ⟨held, hheld, htree, hprinted, hdefinitions⟩ := h.evaluate_ok hkind hrefs
  have hnew : k.name ∉ scope.map Prod.fst := h.names ▸ hname
  -- what is there already holds the same as before
  have hflat : ∀ references : List String, (∀ r ∈ references, r ∈ ks.map Constant.name) →
      references.flatMap (Scope.definitions (scope ++ [(k.name, held)])) =
        references.flatMap scope.definitions := fun references hmem =>
    List.flatMap_congr fun r hr => Scope.definitions_append_of_mem (h.names ▸ hmem r hr) _
  refine ⟨scope ++ [(k.name, held)], ?_, ?_⟩
  · exact declare_eq_ok.mpr ⟨hnew, held, hheld, rfl⟩
  · constructor
    case names => simp [h.names]
    case kind =>
      intro p hp
      rcases List.mem_append.mp hp with hp | hp
      · exact h.kind p hp
      · rw [List.mem_singleton.mp hp]
        exact htree
    case printed =>
      intro p hp
      rcases List.mem_append.mp hp with hp | hp
      · exact h.printed p hp
      · rw [List.mem_singleton.mp hp]
        exact hprinted
    case references =>
      intro k' hk' r hr
      rw [List.map_append]
      refine List.mem_append_left _ ?_
      rcases List.mem_append.mp hk' with hk' | hk'
      · exact h.references k' hk' r hr
      · rw [List.mem_singleton.mp hk'] at hr
        exact hrefs r hr
    case definitions =>
      intro k' hk'
      rcases List.mem_append.mp hk' with hk' | hk'
      · have hmem : k'.name ∈ scope.map Prod.fst := h.names ▸ List.mem_map_of_mem hk'
        rw [Scope.definitions_append_of_mem hmem, hflat _ (h.references k' hk')]
        exact h.definitions k' hk'
      · rw [List.mem_singleton.mp hk', hflat _ hrefs, ← hdefinitions]
        exact Scope.definitions_snoc hnew held

end Loaded

/-- Constants of one kind can be declared if no name comes twice and each constant finds what it
refers to in front of it. -/
theorem exists_load {tree : Bool} {ks : List Constant} (hkind : ∀ k ∈ ks, k.value.isTree = tree)
    (hnames : (ks.map Constant.name).Nodup)
    (hsupplied : Supplied (fun front k => ∀ r ∈ k.value.references, r ∈ front.map Constant.name)
      ks) :
    ∃ scope, load ks = .ok scope ∧ Loaded tree ks scope := by
  induction ks using List.reverseRecOn with
  | nil => exact ⟨[], rfl, .nil tree⟩
  | append_singleton ks k ih =>
      obtain ⟨hfront, hlast⟩ := supplied_append.mp hsupplied
      rw [supplied_singleton, List.append_nil] at hlast
      rw [List.map_append, List.map_singleton, ← List.concat_eq_append, List.nodup_concat] at hnames
      obtain ⟨scope, hscope, hloaded⟩ := ih (fun k' hk' => hkind k' (List.mem_append_left _ hk'))
        hnames.2 hfront
      obtain ⟨scope', hscope', hloaded'⟩ := hloaded.snoc (hkind k (by simp)) hnames.1 hlast
      exact ⟨scope', load_snoc.mpr ⟨scope, hscope, hscope'⟩, hloaded'⟩

end Composables
