import Composables.FileSystem.Resolve

/-
  The lines that commands print.
-/

namespace Composables.CommandLine

def versionLine : String := "vue-compose 0.1.0"

def success (message : String) : String := "  ✔ " ++ message

/-- A file with the address that it is linked to. -/
structure Link where
  path : Path
  address : Path
deriving DecidableEq, Repr

/-- A file is linked to its absolute path, as long as it is there. -/
def Link.to (fs : FileSystem) (p : Path) : Link :=
  match fs.canonical p with
  | .ok address => ⟨p, address⟩
  | .error _ => ⟨p, p⟩

def Link.line (l : Link) : String :=
  "    ▸ \x1b]8;;file://" ++ l.address.text ++ "\x07" ++ l.path.text ++ "\x1b]8;;\x07"

/-- A number of things, with the right form of their noun. -/
def plural (n : Nat) (noun : String) : String :=
  if n = 1 then "1 " ++ noun else toString n ++ " " ++ noun ++ "s"

def generatedLine (operations fragments : Nat) : String :=
  success (plural operations "operation" ++ " · " ++ plural fragments "fragment" ++ " · composition functions ready")

/-- The time that a command took, in milliseconds. -/
def timing (elapsed : String) : String := "  ◇ Done in " ++ elapsed ++ "ms"

def validLines (operations fragments : Nat) : List String :=
  [success "Documents are valid.", "",
    "    " ++ toString operations ++ " operations · " ++ toString fragments ++ " fragments"]

def failedLines : List String := ["", "  ◆ Generation failed.", ""]

/-! ## Boxes -/

/-- A character many times. -/
def rule (n : Nat) (c : Char) : String := String.ofList (List.replicate n c)

def boxHeader (title : String) : String :=
  let title := " " ++ title ++ " "
  "  ╭─" ++ title ++ rule (51 - min title.length 51) '─' ++ "╮"

def boxLine (content : String) : String := "  │ " ++ content ++ rule (53 - content.length) ' ' ++ "│"

def boxFooter : String := "  ╰" ++ rule 53 '─' ++ "╯"

def createdLines (file : Path) : List String :=
  [success ("Created " ++ file.text), "", boxHeader "▸ Next", boxLine "",
    boxLine "   Point \"schema\" and \"documents\" at your files, then:", boxLine "   vue-compose generate",
    boxLine "", boxFooter]

end Composables.CommandLine
