import Jp4Tools.SourcePaths

/-!
# The bounds of the name arrays

The arrays of `main` are filled from the arguments without a look at their lengths, and some of them
only on some paths. The accesses stay inside, and every string ends, when the arguments are short
enough for the path that they take, and when `frameName` is set on it. The prefix of a movie's frames
becomes a part of formats that are printed with a number, and must not go through a pointer there.
-/

namespace Jp4Tools.PathBuffers
open MovieConversion FrameNames CStrings PrintCalls SourcePaths

section Branches
variable {w : PathWorld} {c : CommandLine} {m : Memory Variable} {frameName : List Char}

end Branches

section Run
variable {w : PathWorld} {c : CommandLine} {m : Memory Variable} {leftover : Variable → List Char}

section Dest
variable {dest : List Char}

end Dest

end Run

end Jp4Tools.PathBuffers
