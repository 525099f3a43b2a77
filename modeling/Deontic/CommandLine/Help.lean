/-! The help texts of the program and of its commands. -/

namespace Deontic.CommandLine.Help

def program : String :=
  "\n".intercalate
    ["usage: normtree [-h] [-v] [--seed SEED] [--config CONFIG]",
     "                \x7bsample,chain,infer\x7d ...",
     "",
     "Sample and mutate norm trees.",
     "",
     "positional arguments:",
     "  \x7bsample,chain,infer\x7d",
     "    sample              Draw one norm tree from the grammar",
     "    chain               Run subtree-replacement MH moves",
     "    infer               Sample norms consistent with an observed placement",
     "",
     "options:",
     "  -h, --help            show this help message and exit",
     "  -v, --verbose         Log every step",
     "  --seed SEED           Random seed",
     "  --config CONFIG       Grammar configuration (JSON)"]

/-- Help on `sample`. -/
def sample : String :=
  "\n".intercalate
    ["usage: normtree sample [-h] [--choices]",
     "",
     "options:",
     "  -h, --help  show this help message and exit",
     "  --choices   Also print the recorded choices"]

/-- Help on `chain`. -/
def chain : String :=
  "\n".intercalate
    ["usage: normtree chain [-h] [--steps STEPS] [--check]",
     "",
     "options:",
     "  -h, --help     show this help message and exit",
     "  --steps STEPS",
     "  --check        Verify each involution round-trips"]

/-- Help on `infer`. -/
def infer : String :=
  "\n".intercalate
    ["usage: normtree infer [-h] --color \x7bred,blue,green\x7d --zone \x7b1,2,3\x7d [-n N]",
     "",
     "options:",
     "  -h, --help            show this help message and exit",
     "  --color \x7bred,blue,green\x7d",
     "  --zone \x7b1,2,3\x7d",
     "  -n N                  Number of constrained draws"]

end Deontic.CommandLine.Help
