/-!
# Powers

Powers with natural exponents are those of the core library wherever it has them, whatever other
powers are in scope.
-/

attribute [instance (2000), default_instance 20000] instPowNat
