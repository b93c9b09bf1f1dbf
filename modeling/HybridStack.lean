import HybridStack.Lib.Acyclic
import HybridStack.Lib.Ancestry
import HybridStack.Lib.DepthFirst
import HybridStack.Lib.HashChains
import HybridStack.Lib.JavaLexer
import HybridStack.Lib.JavaStatements
import HybridStack.Lib.JavaTemplate
import HybridStack.Lib.Json
import HybridStack.Lib.LastOfKey
import HybridStack.Lib.LinkedMap
import HybridStack.Lib.Mailbox
import HybridStack.Lib.ReadAll
import HybridStack.Lib.Sweep
import HybridStack.Lib.Transition
import HybridStack.Pisces.Build
import HybridStack.Pisces.CardFilter
import HybridStack.Pisces.CardJson
import HybridStack.Pisces.Events
import HybridStack.Pisces.ExtensionMetaData
import HybridStack.Pisces.Keys
import HybridStack.Pisces.Kinds
import HybridStack.Pisces.MetaData
import HybridStack.Pisces.PiscesPlugin
import HybridStack.Pisces.Processors
import HybridStack.Pisces.Pruning
import HybridStack.Pisces.Registry
import HybridStack.Pisces.Remove
import HybridStack.Pisces.Resident
import HybridStack.Pisces.RoundTrip
import HybridStack.Pisces.Scan
import HybridStack.Pisces.ScanOrder
import HybridStack.Pisces.SourceText
import HybridStack.Pisces.Takeover
import HybridStack.Pisces.Templates
import HybridStack.Pisces.WebTakeover
import HybridStack.QuickJs.AtomNames
import HybridStack.QuickJs.AtomRuns
import HybridStack.QuickJs.Atoms
import HybridStack.QuickJs.Callbacks
import HybridStack.QuickJs.CommonJSModule
import HybridStack.QuickJs.ContextMap
import HybridStack.QuickJs.ContextPlugins
import HybridStack.QuickJs.CrossThread
import HybridStack.QuickJs.ES6Evaluation
import HybridStack.QuickJs.ES6Loading
import HybridStack.QuickJs.ES6Module
import HybridStack.QuickJs.EventQueue
import HybridStack.QuickJs.Exceptions
import HybridStack.QuickJs.Handles
import HybridStack.QuickJs.JsonBridge
import HybridStack.QuickJs.ModuleGraph
import HybridStack.QuickJs.ModuleName
import HybridStack.QuickJs.ModulePath
import HybridStack.QuickJs.Release
import HybridStack.QuickJs.RuntimeClose
import HybridStack.QuickJs.SetTimeoutPlugin
import HybridStack.QuickJs.StackChain
import HybridStack.QuickJs.Strings
import HybridStack.QuickJs.WorkerMessages
import HybridStack.QuickJs.WorkerPlugin
