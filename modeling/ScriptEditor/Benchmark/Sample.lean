import ScriptEditor.Decimal

namespace ScriptEditor.Sample

def lines : List String :=
  ["// inventory report",
    "class Inventory",
    "function restock(items, amount)",
    "    total = 0",
    "    for item in items",
    "        stock[item] = stock[item] + amount",
    "        total = total + amount",
    "    end",
    "    if total > 100 then",
    "        log(\"large restock: \" + total)",
    "    else",
    "        skip",
    "    end",
    "    return total",
    "end",
    "limit = 10",
    "count = restock([\"bolts\", \"nuts\\\"x\\\"\"], limit)",
    "flag = count == none"]

def script : Text := lines.flatMap fun l => l.toList ++ ['\n']

/-- Names of inputs and the inputs: the script so many times over. -/
def inputs : List (Text × Text) :=
  [1, 8, 64, 512].map fun n =>
    ("sample x".toList ++ Decimal.digits n, (List.replicate n script).flatten)

end ScriptEditor.Sample
