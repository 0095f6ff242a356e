import Linewise.FileTree
import Linewise.Report

namespace Linewise

namespace FileTree

def compileFile (t : FileTree) (p : Path) (base : List String := []) : Except (Failure Report) Program :=
  match t.text p base with
  | .error e => .error (.rejected (.unreadableSource p e))
  | .ok source => (compile p.text source).mapError (.map .diagnostic)

def tokenizeFile (t : FileTree) (settings : Settings) (p : Path) (base : List String := []) :
    Except Report (Array Token) :=
  match t.text p base with
  | .error e => .error (.unreadableSource p e)
  | .ok source =>
    ((Lexer.ofSource source settings.keepComments).readAll).mapError fun e ↦
      .diagnostic (.ofSyntaxError (.lexical e) p.text source)

end FileTree

structure Batch where
  programs : List (Path × Program)
  failures : List (Path × Failure Report)

namespace Batch

def isSuccess (b : Batch) : Bool := b.failures.isEmpty

def addInFront (p : Path) (result : Except (Failure Report) Program) (b : Batch) : Batch :=
  match result with
  | .ok program => { b with programs := (p, program) :: b.programs }
  | .error failure => { b with failures := (p, failure) :: b.failures }

end Batch

/-- Compiles each of the files by itself; one that fails does not keep the others from being compiled. -/
def FileTree.compileFiles (t : FileTree) (paths : List Path) (base : List String := []) : Batch :=
  paths.foldr (fun p ↦ Batch.addInFront p (t.compileFile p base)) ⟨[], []⟩

end Linewise
