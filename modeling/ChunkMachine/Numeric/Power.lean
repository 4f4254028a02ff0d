set_option relaxedAutoImplicit false
set_option autoImplicit false

/-!
# Powers

A power of natural numbers means the core operation in all modules, also where a library is imported
that reads powers in any monoid. So one statement about powers is one statement everywhere.
-/

namespace ChunkMachine

/-- Powers of whole numbers are those of the core library, also where a library with powers of its
own is imported. -/
@[default_instance 20000]
instance (priority := 20000) natPow : Pow Nat Nat := instPowNat

end ChunkMachine
