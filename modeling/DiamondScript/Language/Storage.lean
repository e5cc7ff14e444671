namespace DiamondScript

/-- Where a variable is kept. Parameters and temporaries live on the line they belong to. -/
inductive Storage where
  | line
  | var
  | game
  | save
  | local
  deriving DecidableEq, Repr

namespace Storage

def all : List Storage := [.line, .var, .game, .save, .local]

def keyword : Storage → String
  | .line => "line"
  | .var => "var"
  | .game => "game"
  | .save => "save"
  | .local => "local"

def wireName : Storage → String
  | .line | .var => "line"
  | .game => "unsaved"
  | .save => "saved"
  | .local => "local"

def ofKeyword? (word : String) : Option Storage := all.find? fun s => s.keyword == word

end Storage
end DiamondScript
