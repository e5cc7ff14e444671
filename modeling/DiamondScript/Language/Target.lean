namespace DiamondScript

inductive Target where
  | all
  | allMobs
  | default
  | damager
  | killer
  | victim
  | selection
  | shooter
  deriving DecidableEq, Repr

namespace Target

def every : List Target :=
  [.all, .allMobs, .default, .damager, .killer, .victim, .selection, .shooter]

def keyword : Target → String
  | .all => "all"
  | .allMobs => "allmobs"
  | .default => "default"
  | .damager => "damager"
  | .killer => "killer"
  | .victim => "victim"
  | .selection => "selection"
  | .shooter => "shooter"

def wireName : Target → String
  | .all => "AllPlayers"
  | .allMobs => "AllMobs"
  | .default => "Default"
  | .damager => "Damager"
  | .killer => "Killer"
  | .victim => "Victim"
  | .selection => "Selection"
  | .shooter => "Shooter"

def ofKeyword? (word : String) : Option Target := every.find? fun t => t.keyword == word

end Target
end DiamondScript
