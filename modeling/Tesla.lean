import Tesla.Analyser.Accepted
import Tesla.Analyser.Arguments
import Tesla.Analyser.Macros
import Tesla.Analyser.Parser
import Tesla.Analyser.Syntax
import Tesla.Analyser.Variables
import Tesla.Analyser.Visitor
import Tesla.Automata.Bindings
import Tesla.Automata.Conditional
import Tesla.Automata.Converted
import Tesla.Automata.Lifetime
import Tesla.Automata.Linking
import Tesla.Automata.Termination
import Tesla.Instrumenter.Assertion
import Tesla.Instrumenter.Chain
import Tesla.Instrumenter.Fields
import Tesla.Instrumenter.LifetimeGlobals
import Tesla.Instrumenter.Program
import Tesla.Instrumenter.Table
import Tesla.Instrumenter.Verdict
import Tesla.Lib.Attempt
import Tesla.Lib.Ensures
import Tesla.Lib.Run
import Tesla.Lib.Trace
import Tesla.Runtime.Bag
import Tesla.Runtime.ClassTable
import Tesla.Runtime.EarlyExit
import Tesla.Runtime.Isolation
import Tesla.Runtime.KeyOrder
import Tesla.Runtime.KeySingleton
import Tesla.Runtime.LateInit
import Tesla.Runtime.LifetimeTable
import Tesla.Runtime.Listener
import Tesla.Runtime.Masks
import Tesla.Runtime.Memory
import Tesla.Runtime.Monitor
import Tesla.Runtime.Names
import Tesla.Runtime.Plain
import Tesla.Runtime.Sunset
import Tesla.Tools.Cat
