/-! # Capacities of an execution context -/
namespace StackVM.Capacity

def stack : Nat := 1024

def frames : Nat := 64

def handlers : Nat := 64

end StackVM.Capacity
