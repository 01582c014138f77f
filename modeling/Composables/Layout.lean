import Composables.Module.Generate

/-
  Modules beside documents: where each lies, and which fragments it imports from the others.
-/

namespace Composables.Layout

/-- The module of a document: its file name with another extension. -/
def outputPath (document : Path) (extension : String) : Path :=
  document.withFileName (document.stem ++ extension)

/-- The fragments of a collection that a document does not declare, each imported from the module of the
document that does. -/
def importedFor (document : Path) (all : Collection) (extension : String) (jsExtension : Bool) :
    List ImportedFragment :=
  (all.fragments.filter fun f => !f.file.same document).map fun fragment =>
    { fragment,
      module := specifier (outputPath document extension) (outputPath fragment.file extension) jsExtension }

/-- The module of one document of a collection. -/
def generate (schema : Schema) (options : Options) (all : Collection) (extension : String) (d : Document) :
    Except Error Module :=
  Composables.generate schema options (importedFor d.location all extension (!options.legacyImports)) [d]

end Composables.Layout
