/-
  File:      ClassScript/Emission/Script.lean
  Subject:   The script of a source text.

  A script starts in strict mode. One that imports or exports says so, and one
  that imports a default export brings the function that finds it.

  * `Script.header`: the lines before the text;
  * `Script.ofTree`, `Script.ofText`: the script of a tree and of a text.
-/
import ClassScript.Emission.Erasure
import ClassScript.Syntax.Program

namespace ClassScript.Script

open Syntax (Source Tree)

/-- The line that asks for strict mode. -/
def strictLine : String := "\"use strict\";\n"

/-- The line that marks a module. -/
def moduleLine : String :=
  "Object.defineProperty(exports, \"__esModule\", \x7b value: true \x7d);\n"

/-- The function that finds the default export of a module. -/
def defaultHelper : String :=
  "var __importDefault = (this && this.__importDefault) || function (mod) \x7b\n" ++
    "    return (mod && mod.__esModule) ? mod : \x7b \"default\": mod \x7d;\n\x7d;\n"

/-- The lines before the text of a script. -/
def header (e : Emission) : String :=
  strictLine ++ (if e.usesModules then moduleLine else "") ++
    (if e.importsDefault then defaultHelper else "")

/-- The script of a program's tree. -/
def ofTree (src : Source) (t : Tree) : Except EmissionError String :=
  (Emission.emitAll src t.children).map fun e => header e ++ Emission.Edit.applyTo src e.edits

/-- The script of a text. -/
def ofText (text : String) : Except EmissionError String :=
  let src := Source.ofString text
  match Tree.ofSource src with
  | .ok t => ofTree src t
  | .error position => .error (.badSyntax position)

end ClassScript.Script
