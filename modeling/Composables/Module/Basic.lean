import Composables.Module.Constant
import Composables.Module.Import
import Composables.Module.Part

/-
  A generated module: lines in front, then one block for each constant and for each operation's functions.
-/

namespace Composables

/-- The text of a module in two pieces. -/
structure Output where
  /-- The lines in front, none twice. -/
  prepend : List String
  content : String
deriving DecidableEq, Repr, Inhabited

/-- The whole text: the lines in front, an empty line, and the content. -/
def Output.render (o : Output) : String :=
  if o.prepend.isEmpty then o.content else "\n".intercalate o.prepend ++ "\n\n" ++ o.content

structure Module where
  imports : List Import
  constants : List Constant
  /-- The functions for each operation. -/
  functions : List (List Part)
deriving Repr

namespace Module

def prepend (m : Module) : List String := Distinct.ofList (m.imports.map Import.render)

def renderParts (parts : List Part) : String := "\n".intercalate (parts.map Part.render)

def blocks (m : Module) : List String := m.constants.map Constant.render ++ m.functions.map renderParts

def content (m : Module) : String :=
  if m.blocks.isEmpty then "" else "\n\n".intercalate m.blocks ++ "\n"

def output (m : Module) : Output := ⟨m.prepend, m.content⟩

def render (m : Module) : String := m.output.render

/-- The names declared for values: constants and functions. -/
def valueNames (m : Module) : List String :=
  m.constants.map Constant.name ++ m.functions.flatten.filterMap Part.functionName?

/-- The names declared for the types of results. -/
def typeNames (m : Module) : List String := m.functions.flatten.filterMap Part.typeName?

end Module

/-! ## Blocks in the text -/

/-- What is put together with separators stands in the whole. -/
theorem infix_intercalate {sep xs : List Char} {texts : List (List Char)} (h : xs ∈ texts) :
    xs <:+: sep.intercalate texts := by
  refine List.infix_of_mem_flatten ?_
  induction texts with
  | nil => exact absurd h List.not_mem_nil
  | cons ys texts ih =>
      cases texts with
      | nil => exact h
      | cons zs texts =>
          rw [List.intersperse_cons_cons, List.mem_cons, List.mem_cons]
          exact (List.mem_cons.mp h).imp_right fun h => .inr (ih h)

namespace Module

variable {m : Module} {k : Constant} {block : String}

theorem render_mem_blocks (h : k ∈ m.constants) : k.render ∈ m.blocks :=
  List.mem_append_left _ (List.mem_map_of_mem h)

theorem infix_of_mem_blocks (h : block ∈ m.blocks) : block.toList <:+: m.render.toList := by
  have hblocks : m.blocks.isEmpty = false := by simpa using List.ne_nil_of_mem h
  have hcontent : block.toList <:+: m.content.toList := by
    rw [content, hblocks, if_neg Bool.false_ne_true, String.toList_append,
      String.toList_intercalate]
    exact (infix_intercalate (List.mem_map_of_mem h)).trans (List.prefix_append _ _).isInfix
  rw [render, Output.render]
  split
  · exact hcontent
  · rw [String.toList_append]
    exact hcontent.trans (List.suffix_append _ _).isInfix

end Module

end Composables
