namespace SchemaGen.Table

variable {κ ν : Type}

/-- Sets the value of the first key that is the same as `key`, or adds the pair at the end. -/
def insertBy (same : κ → κ → Bool) (key : κ) (value : ν) : List (κ × ν) → List (κ × ν)
  | [] => [(key, value)]
  | (k, v) :: rest =>
    if same k key then (k, value) :: rest else (k, v) :: insertBy same key value rest

/-- Sets a value as `insertBy` does, and gives the one that it replaces, if there is one. -/
def exchangeBy (same : κ → κ → Bool) (key : κ) (value : ν) :
    List (κ × ν) → Option ν × List (κ × ν)
  | [] => (none, [(key, value)])
  | (k, v) :: rest =>
    if same k key then (some v, (k, value) :: rest)
    else
      let (old, rest) := exchangeBy same key value rest
      (old, (k, v) :: rest)

/-- The table filled with the entries from the left. -/
def ofEntriesBy (same : κ → κ → Bool) (entries : List (κ × ν)) : List (κ × ν) :=
  entries.foldl (fun table e => insertBy same e.1 e.2 table) []

variable [BEq κ]

def insert (key : κ) (value : ν) (table : List (κ × ν)) : List (κ × ν) :=
  insertBy (· == ·) key value table

def exchange (key : κ) (value : ν) (table : List (κ × ν)) : Option ν × List (κ × ν) :=
  exchangeBy (· == ·) key value table

def ofEntries (entries : List (κ × ν)) : List (κ × ν) := ofEntriesBy (· == ·) entries

def keys (table : List (κ × ν)) : List κ := table.map (·.1)

end SchemaGen.Table
