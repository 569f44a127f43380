import Parsat.Library.UnitPropagation
import Parsat.Library.Weight
import Parsat.Library.Machine
import Parsat.Library.TaskPool
import Parsat.Library.Odometer
import Parsat.Library.Cache
import Parsat.Library.References
import Parsat.Library.OrderedSet
import Parsat.Library.Numbering
import Parsat.Sat.Literal
import Parsat.Sat.Solver
import Parsat.Sat.PropCheck
import Parsat.Sat.History
import Parsat.Sat.Loading
import Parsat.Sat.Problem
import Parsat.Sat.Reconstruct
import Parsat.Sat.Renumber
import Parsat.Sat.Copies
import Parsat.Sat.Verify
import Parsat.Minisat.Core
import Parsat.Minisat.Trail
import Parsat.Minisat.Propagate
import Parsat.Minisat.Analyze
import Parsat.Minisat.Database
import Parsat.Minisat.Sound
import Parsat.Minisat.Runs
import Parsat.Search.Search
import Parsat.Search.Enumeration
import Parsat.Search.Split
import Parsat.Search.Random
import Parsat.Propagation.Sequential
import Parsat.Propagation.Pool
import Parsat.Propagation.Tree
import Parsat.Propagation.Reports
import Parsat.Propagation.Engines
import Parsat.Backdoor.Instance
import Parsat.Backdoor.Samples
import Parsat.Backdoor.Preprocess
import Parsat.Backdoor.Evolution
import Parsat.Backdoor.Unvisited
import Parsat.Backdoor.Order
import Parsat.Backdoor.Genetic
import Parsat.Backdoor.Heap
import Parsat.Backdoor.Elitism
import Parsat.Backdoor.FindRb
import Parsat.Backdoor.Coverage
import Parsat.Backdoor.Sizes
import Parsat.Backdoor.LRUCache
import Parsat.Solve.Service
import Parsat.Solve.Portfolio
import Parsat.Solve.Race
import Parsat.Solve.Painless
import Parsat.Solve.Blocks
import Parsat.Solve.Recurring
import Parsat.Solve.Termination
import Parsat.Solve.Reduce
import Parsat.Solve.Dropped
import Parsat.Solve.Promises
import Parsat.Solve.Events
import Parsat.Solve.Interrupt
import Parsat.Solve.Timer
import Parsat.Solve.TimeLimit
import Parsat.Minisat.Loads
