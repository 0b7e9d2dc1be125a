/-
Settings, read from environment variables.

A switch is on if its variable holds one of five words, in upper or lower case. No letter outside ASCII has one of
these words' letters as its lower case, so folding the ASCII letters decides it. The number of lines in front of an
excerpt is any whole number; if the variable is missing, or holds anything else, it is three.
-/
import SchemeStack.Text.Decimal

namespace SchemeStack

/-- what the environment decides -/
structure Settings where
  debug : Bool
  optimize : Bool
  excerptLines : Int
  deriving DecidableEq

namespace Settings

def version : String := "0.3.0"

/-- the words that switch a setting on -/
def onWords : List String := ["true", "t", "yes", "y", "1"]

/-- the text of a variable switches its setting on -/
def isOn (text : Option String) : Bool := onWords.contains (text.getD "").toLower

/-- the lines in front of an excerpt when nothing else is set -/
def defaultExcerptLines : Int := 3

/-- the names of the variables that settings are read from -/
def variableNames : List String := ["ZYMOGEN_DEBUG", "ZYMOGEN_OPTIMIZE", "ZYMOGEN_SNIPPET_LINES"]

/-- the settings of an environment, given as a look-up of its variables -/
def ofEnvironment (lookup : String → Option String) : Settings where
  debug := isOn (lookup "ZYMOGEN_DEBUG")
  optimize := isOn (lookup "ZYMOGEN_OPTIMIZE")
  excerptLines := ((lookup "ZYMOGEN_SNIPPET_LINES").bind Text.readInt?).getD defaultExcerptLines

end Settings

end SchemeStack
