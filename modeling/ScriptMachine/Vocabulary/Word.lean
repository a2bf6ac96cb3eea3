/-
  ScriptMachine.Vocabulary.Word

  The reserved command words of the script language.
-/

namespace ScriptMachine

/-- The reserved command words.  Every symbol table starts with them, and they
can be copied to another name but never redefined. -/
inductive Word where
  | block | stop | var
  | ifThen | elseIf | otherwise | endIf
  | declare | define
  | choose | caseOf | breakOut | default | endChoose
  | defineCommand
  | whileDo | endWhile | exitWhile
  deriving DecidableEq, Repr

namespace Word

/-- All reserved words. -/
def all : List Word :=
  [block, stop, var, ifThen, elseIf, otherwise, endIf, declare, define, choose, caseOf, breakOut,
    default, endChoose, defineCommand, whileDo, endWhile, exitWhile]

/-- Spelling of a word in a script. -/
def spelling : Word → String
  | block => "__block"
  | stop => "end"
  | var => "var"
  | ifThen => "if"
  | elseIf => "elseif"
  | otherwise => "else"
  | endIf => "endif"
  | declare => "declare"
  | define => "define"
  | choose => "choose"
  | caseOf => "case"
  | breakOut => "break"
  | default => "default"
  | endChoose => "endchoose"
  | defineCommand => "defcmd"
  | whileDo => "while"
  | endWhile => "endwhile"
  | exitWhile => "exitwhile"

/-- The word with a given spelling. -/
def ofSpelling? (s : String) : Option Word :=
  all.find? (·.spelling == s)

theorem mem_all (w : Word) : w ∈ all := by
  cases w <;> decide

theorem ofSpelling?_spelling (w : Word) : ofSpelling? w.spelling = some w := by
  cases w <;> decide +kernel

theorem spelling_of_ofSpelling? {s : String} {w : Word} (h : ofSpelling? s = some w) :
    w.spelling = s := by
  simpa using List.find?_some h

theorem spelling_injective {v w : Word} (h : v.spelling = w.spelling) : v = w := by
  have := ofSpelling?_spelling v
  rw [h, ofSpelling?_spelling] at this
  exact (Option.some.inj this).symm

end Word

end ScriptMachine
